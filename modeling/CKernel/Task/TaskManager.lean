/-
# `CKernel.Task.TaskManager` — commands, `tasks.txt` and restarts

The state is a running `task_manager` with the file its last `save()` wrote.  A
command line is executed as in `main`; a restart runs the constructor, whose `load()`
reads the file.  The fields of a `task` that no extraction has set yet have any value.

    a line of the file gives back the task, normalised   (`loadTask_saveTask`)
    the file gives back the tasks                        (`load_save`)
    a restart keeps the tasks exactly when they are
      normal already                                     (`restart_same_iff`)
    ids stay distinct, positive and below `_next_id`     (`ids_unique`)
-/
import CKernel.Lib.Text

namespace CKernel.Tasks

open Text

/-! ## The code -/

structure Task where
  id : Int
  description : List Char
  priority : Int
  ddl : List Char
  deriving DecidableEq, Repr

/-- A `task_manager` and `tasks.txt`; `added` counts the tasks ever added. -/
structure Store where
  tasks : List Task
  nextId : Nat
  file : Option (List Char)
  added : Nat
  deriving DecidableEq, Repr

/-- No file yet. -/
def Store.empty : Store := ⟨[], 1, none, 0⟩

/-- To `int`, and `int` arithmetic. -/
def toInt (n : Int) : Int := n.bmod (2 ^ 32)

/-- To `size_t`, and `size_t` arithmetic. -/
def toSize (n : Int) : Nat := (n % 2 ^ 64).toNat

/-- One line of `save()`. -/
def saveTask (t : Task) : List Char :=
  showInt t.id ++ ", ".toList ++ t.description ++ ", ".toList ++ showInt t.priority ++
    ", ".toList ++ t.ddl ++ ['\n']

def save (tasks : List Task) : List Char := tasks.flatMap saveTask

/-- The task read from a line; `junk` is what `_id` and `_priority` hold at first. -/
def loadTask (junk : Int × Int) (line : List Char) : Task :=
  let iss := Stream.ofText line
  let (iss, id) := iss.readInt junk.1
  let iss := iss.readChar
  let (iss, description) := iss.getline [] ','
  let description := trim description
  let (iss, priority) := iss.readInt junk.2
  let iss := iss.readChar
  let (_, ddl) := iss.readWord []
  ⟨id, description, priority, ddl⟩

/-- `_next_id` after a task is loaded -/
def loadNext (nextId : Nat) (id : Int) : Nat :=
  if nextId ≤ toSize id then toSize (toInt (id + 1)) else nextId

/-- The loop of `load()`: `_tasks` and `_next_id` -/
def loadLine (junk : Nat → Int × Int) (m : List Task × Nat) (line : List Char) :
    List Task × Nat :=
  let tsk := loadTask (junk m.1.length) line
  (m.1 ++ [tsk], loadNext m.2 tsk.id)

/-- `load()`, from the text of the file -/
def load (junk : Nat → Int × Int) (text : List Char) : List Task × Nat :=
  (lines text).foldl (loadLine junk) ([], 1)

namespace Store

def add (s : Store) (description : List Char) (priority : Int) (date : List Char) : Store :=
  let tasks := s.tasks ++ [⟨toInt s.nextId, description, priority, date⟩]
  ⟨tasks, toSize (s.nextId + 1), some (save tasks), s.added + 1⟩

def remove (s : Store) (id : Int) : Store :=
  if s.tasks.any (·.id = id) then
    let tasks := s.tasks.eraseP (·.id = id)
    { s with tasks := tasks, file := some (save tasks) }
  else s

def update (s : Store) (id : Int) (description : List Char) (priority : Int)
    (date : List Char) : Store :=
  if s.tasks.any (·.id = id) then
    let tasks := s.tasks.modify (s.tasks.findIdx (·.id = id)) fun t =>
      { t with description := description, priority := priority, ddl := date }
    { s with tasks := tasks, file := some (save tasks) }
  else s

/-- `add_command::exec_impl` -/
def addCommand (s : Store) (args : List Char) : Store :=
  match cut ',' args with
  | none => s
  | some (description, args) =>
      match cut ',' args with
      | none => s
      | some (priority, deadline) =>
          if description = [] then s
          else
            match stoi priority with
            | .error _ => s
            | .ok (priority, _) => s.add (trim description) priority (trim deadline)

/-- `del_command::exec_impl` -/
def delCommand (s : Store) (args : List Char) : Store :=
  match stoi args with
  | .error _ => s
  | .ok (id, idx) => if idx ≠ args.length then s else s.remove id

/-- `update_command::exec_impl` -/
def updateCommand (s : Store) (args : List Char) : Store :=
  match cut ',' args with
  | none => s
  | some (id, args) =>
      match cut ',' args with
      | none => s
      | some (description, args) =>
          match cut ',' args with
          | none => s
          | some (priority, ddl) =>
              match stoi id, stoi priority with
              | .ok (id, _), .ok (priority, _) => s.update id description priority ddl
              | _, _ => s

/-- A line of input in `main`; the other commands do not change the tasks. -/
def exec (s : Store) (input : List Char) : Store :=
  let cmd := input.takeWhile (· ≠ ' ')
  let args := (input.dropWhile (· ≠ ' ')).drop 1
  if cmd = "add".toList then s.addCommand args
  else if cmd = "delete".toList then s.delCommand args
  else if cmd = "update".toList then s.updateCommand args
  else s

/-- `task_manager::task_manager()`, with the file that is there -/
def restart (junk : Nat → Int × Int) (s : Store) : Store :=
  match s.file with
  | none => { s with tasks := [], nextId := 1 }
  | some text => { s with tasks := (load junk text).1, nextId := (load junk text).2 }

end Store

/-! ## The file gives back the tasks -/

/-- What the commands make of their arguments. -/
structure Fields (description : List Char) (priority : Int) (ddl : List Char) : Prop where
  comma : ',' ∉ description
  newline : '\n' ∉ description
  int : IsInt priority
  ddl_newline : '\n' ∉ ddl

structure Task.Ok (t : Task) : Prop where
  int : IsInt t.id
  fields : Fields t.description t.priority t.ddl

/-- What is left of a task after a restart. -/
def Task.normal (t : Task) : Task :=
  { t with description := trim t.description, ddl := word t.ddl }

/-- A task without white space at risk. -/
def Task.Plain (t : Task) : Prop := Trimmed t.description ∧ ∀ c ∈ t.ddl, isSpace c = false

theorem Task.normal_eq_self {t : Task} : t.normal = t ↔ t.Plain := by
  cases t with
  | mk id description priority ddl =>
      rw [normal, Plain, Task.mk.injEq, trim_eq_self, word_eq_self]
      simp only [true_and]

instance (t : Task) : Decidable t.Plain := decidable_of_iff _ Task.normal_eq_self

theorem map_normal_eq_self {tasks : List Task} :
    tasks.map Task.normal = tasks ↔ ∀ t ∈ tasks, t.Plain := by
  induction tasks with
  | nil => simp
  | cons t tasks ih =>
      rw [List.map_cons, List.cons.injEq, Task.normal_eq_self, ih, List.forall_mem_cons]

theorem Task.Ok.normal {t : Task} (h : t.Ok) : t.normal.Ok :=
  ⟨h.int, fun hmem => h.fields.comma (mem_trim hmem), fun hmem => h.fields.newline (mem_trim hmem),
    h.fields.int, fun hmem => h.fields.ddl_newline (mem_word hmem)⟩

/-- A line of the file, as it is read. -/
def saveLine (t : Task) : List Char :=
  showInt t.id ++ ',' :: ((' ' :: t.description) ++ ',' ::
    ([' '] ++ showInt t.priority ++ ',' :: ' ' :: t.ddl))

theorem saveTask_eq (t : Task) : saveTask t = saveLine t ++ ['\n'] := by
  simp [saveTask, saveLine]

theorem newline_not_mem_saveLine {t : Task} (h : t.Ok) : '\n' ∉ saveLine t := by
  have hshow : ∀ n, '\n' ∉ showInt n := fun n => not_mem_showInt (by decide) (by decide)
  simp [saveLine, hshow, h.fields.newline, h.fields.ddl_newline]

theorem loadTask_saveTask {t : Task} (h : t.Ok) (junk : Int × Int) :
    loadTask junk (saveLine t) = t.normal := by
  have hcomma : ',' ∉ ' ' :: t.description := by
    simp [h.fields.comma]
  have hnil : ∀ d ∈ ([] : List Char), isSpace d = true := fun d hd => absurd hd List.not_mem_nil
  have hblank : ∀ d ∈ [' '], isSpace d = true := List.forall_mem_singleton.mpr (by decide)
  rw [loadTask, saveLine, ← List.nil_append (showInt t.id),
    Stream.readInt_showInt hnil h.int (by decide)]
  simp only [Stream.readChar_cons (show isSpace ',' = false by decide),
    Stream.getline_append hcomma, Stream.readWord_ofText,
    Stream.readInt_showInt hblank h.fields.int (show Char.isDigit ',' = false by decide)]
  rw [trim_blank_cons (by decide), word_space_cons (by decide)]
  rfl

theorem lines_save {tasks : List Task} (h : ∀ t ∈ tasks, t.Ok) :
    lines (save tasks) = tasks.map saveLine := by
  induction tasks with
  | nil => rfl
  | cons t tasks ih =>
      rw [save, List.flatMap_cons, saveTask_eq, List.append_assoc, List.singleton_append,
        lines_append (newline_not_mem_saveLine (h t List.mem_cons_self)), List.map_cons,
        ← ih fun u hu => h u (List.mem_cons_of_mem _ hu)]
      rfl

theorem load_save {tasks : List Task} (h : ∀ t ∈ tasks, t.Ok) (junk : Nat → Int × Int) :
    load junk (save tasks) =
      (tasks.map Task.normal, (tasks.map Task.id).foldl loadNext 1) := by
  rw [load, lines_save h]
  -- the loop, from any number of tasks already loaded
  suffices hloop : ∀ (done : List Task) (nextId : Nat),
      (tasks.map saveLine).foldl (loadLine junk) (done, nextId) =
        (done ++ tasks.map Task.normal, (tasks.map Task.id).foldl loadNext nextId) from hloop [] 1
  induction tasks with
  | nil =>
      intro done nextId
      rw [List.map_nil, List.map_nil, List.append_nil]
      rfl
  | cons t tasks ih =>
      intro done nextId
      rw [List.map_cons, List.foldl_cons, loadLine, loadTask_saveTask (h t List.mem_cons_self),
        ih fun u hu => h u (List.mem_cons_of_mem _ hu), List.append_assoc]
      rfl

/-! ## What a command can do -/

theorem isInt_toInt (n : Int) : IsInt (toInt n) :=
  ⟨Int.le_bmod (by decide), Int.bmod_lt (by decide)⟩

namespace Store

variable {s : Store} {args input : List Char}

theorem addCommand_cases (h : '\n' ∉ args) :
    s.addCommand args = s ∨
      ∃ description priority ddl, Fields description priority ddl ∧
        s.addCommand args = s.add description priority ddl := by
  rw [addCommand]
  cases h₁ : cut ',' args with
  | none => exact .inl rfl
  | some p =>
      obtain ⟨description, args'⟩ := p
      obtain ⟨hcomma, hdescription, hargs⟩ := cut_eq_some h₁
      cases h₂ : cut ',' args' with
      | none => exact .inl (by simp only [h₂])
      | some p =>
          obtain ⟨priority, deadline⟩ := p
          obtain ⟨-, -, hdeadline⟩ := cut_eq_some h₂
          simp only [h₂]
          split
          · exact .inl rfl
          · split
            · exact .inl rfl
            · rename_i n k hn
              refine .inr ⟨trim description, n, trim deadline, ⟨?_, ?_, isInt_of_stoi hn, ?_⟩, rfl⟩
              · exact fun hmem => hcomma (mem_trim hmem)
              · exact fun hmem => h (hdescription _ (mem_trim hmem))
              · exact fun hmem => h (hargs _ (hdeadline _ (mem_trim hmem)))

theorem delCommand_cases : s.delCommand args = s ∨ ∃ id, s.delCommand args = s.remove id := by
  rw [delCommand]
  split
  · exact .inl rfl
  · split
    · exact .inl rfl
    · exact .inr ⟨_, rfl⟩

theorem updateCommand_cases (h : '\n' ∉ args) :
    s.updateCommand args = s ∨
      ∃ id description priority ddl, Fields description priority ddl ∧
        s.updateCommand args = s.update id description priority ddl := by
  rw [updateCommand]
  cases h₁ : cut ',' args with
  | none => exact .inl rfl
  | some p =>
      obtain ⟨id, args₁⟩ := p
      obtain ⟨-, -, hargs₁⟩ := cut_eq_some h₁
      cases h₂ : cut ',' args₁ with
      | none => exact .inl (by simp only [h₂])
      | some p =>
          obtain ⟨description, args₂⟩ := p
          obtain ⟨hcomma, hdescription, hargs₂⟩ := cut_eq_some h₂
          cases h₃ : cut ',' args₂ with
          | none => exact .inl (by simp only [h₂, h₃])
          | some p =>
              obtain ⟨priority, ddl⟩ := p
              obtain ⟨-, -, hddl⟩ := cut_eq_some h₃
              simp only [h₂, h₃]
              split
              · rename_i n _ m _ hn hm
                refine .inr ⟨n, description, m, ddl, ⟨hcomma, ?_, isInt_of_stoi hm, ?_⟩, rfl⟩
                · exact fun hmem => h (hargs₁ _ (hdescription _ hmem))
                · exact fun hmem => h (hargs₁ _ (hargs₂ _ (hddl _ hmem)))
              · exact .inl rfl

theorem exec_cases (h : '\n' ∉ input) :
    s.exec input = s ∨
      (∃ description priority ddl, Fields description priority ddl ∧
        s.exec input = s.add description priority ddl) ∨
      (∃ id, s.exec input = s.remove id) ∨
      ∃ id description priority ddl, Fields description priority ddl ∧
        s.exec input = s.update id description priority ddl := by
  have hargs : '\n' ∉ (input.dropWhile (· ≠ ' ')).drop 1 := fun hmem =>
    h ((List.dropWhile_sublist _).subset ((List.drop_sublist _ _).subset hmem))
  rw [exec]
  split
  · rcases addCommand_cases (s := s) hargs with hsame | hadd
    · exact .inl hsame
    · exact .inr (.inl hadd)
  · split
    · rcases delCommand_cases (s := s) with hsame | hremove
      · exact .inl hsame
      · exact .inr (.inr (.inl hremove))
    · split
      · rcases updateCommand_cases (s := s) hargs with hsame | hupdate
        · exact .inl hsame
        · exact .inr (.inr (.inr hupdate))
      · exact .inl rfl

/-! ## One restart -/

/-- The tasks can be written, and the file is what `save()` made of them. -/
structure Saved (s : Store) : Prop where
  ok : ∀ t ∈ s.tasks, t.Ok
  file : s.file = none ∧ s.tasks = [] ∨ s.file = some (save s.tasks)

theorem ok_add {description ddl : List Char} {priority : Int} (h : ∀ t ∈ s.tasks, t.Ok)
    (hfields : Fields description priority ddl) :
    ∀ t ∈ (s.add description priority ddl).tasks, t.Ok := by
  intro t ht
  rcases List.mem_append.mp ht with ht | ht
  · exact h t ht
  · rw [List.mem_singleton.mp ht]
    refine ⟨?_, hfields⟩
    dsimp only
    exact isInt_toInt _

theorem ok_remove {id : Int} (h : ∀ t ∈ s.tasks, t.Ok) : ∀ t ∈ (s.remove id).tasks, t.Ok := by
  rw [remove]
  split
  · exact fun t ht => h t (List.eraseP_sublist.subset ht)
  · exact h

theorem mem_modify {tasks : List Task} {t : Task} {i : Nat} {f : Task → Task}
    (h : t ∈ tasks.modify i f) : ∃ u ∈ tasks, t = u ∨ t = f u := by
  obtain ⟨j, hj⟩ := List.mem_iff_getElem?.mp h
  rw [List.getElem?_modify] at hj
  obtain ⟨u, hu, rfl⟩ := Option.map_eq_some_iff.mp hj
  refine ⟨u, List.mem_of_getElem? hu, ?_⟩
  split
  · exact .inr rfl
  · exact .inl rfl

theorem ok_update {id : Int} {description ddl : List Char} {priority : Int}
    (h : ∀ t ∈ s.tasks, t.Ok) (hfields : Fields description priority ddl) :
    ∀ t ∈ (s.update id description priority ddl).tasks, t.Ok := by
  rw [update]
  split
  · intro t ht
    obtain ⟨u, hu, rfl | rfl⟩ := mem_modify ht
    · exact h t hu
    · exact ⟨(h u hu).int, hfields⟩
  · exact h

theorem exec_ok (h : ∀ t ∈ s.tasks, t.Ok) (hinput : '\n' ∉ input) :
    ∀ t ∈ (s.exec input).tasks, t.Ok := by
  rcases exec_cases (s := s) hinput with hsame | ⟨d, p, dl, hfields, hadd⟩ | ⟨id, hremove⟩ |
    ⟨id, d, p, dl, hfields, hupdate⟩
  · rw [hsame]
    exact h
  · rw [hadd]
    exact ok_add h hfields
  · rw [hremove]
    exact ok_remove h
  · rw [hupdate]
    exact ok_update h hfields

/-- A command that changes the tasks saves them. -/
theorem exec_file (hinput : '\n' ∉ input) :
    s.exec input = s ∨ (s.exec input).file = some (save (s.exec input).tasks) := by
  rcases exec_cases (s := s) hinput with hsame | ⟨d, p, dl, -, hadd⟩ | ⟨id, hremove⟩ |
    ⟨id, d, p, dl, -, hupdate⟩
  · exact .inl hsame
  · rw [hadd]
    exact .inr rfl
  · rw [hremove, remove]
    split
    · exact .inr rfl
    · exact .inl rfl
  · rw [hupdate, update]
    split
    · exact .inr rfl
    · exact .inl rfl

theorem exec_saved (h : s.Saved) (hinput : '\n' ∉ input) : (s.exec input).Saved := by
  refine ⟨exec_ok h.ok hinput, ?_⟩
  rcases exec_file (s := s) hinput with hsame | hfile
  · rw [hsame]
    exact h.file
  · exact .inr hfile

theorem empty_saved : empty.Saved :=
  ⟨fun _ ht => absurd ht List.not_mem_nil, .inl ⟨rfl, rfl⟩⟩

theorem restart_tasks (h : s.Saved) (junk : Nat → Int × Int) :
    (restart junk s).tasks = s.tasks.map Task.normal := by
  rcases h.file with ⟨hnone, hnil⟩ | hfile
  · rw [restart, hnone, hnil]
    rfl
  · rw [restart, hfile]
    show (load junk (save s.tasks)).1 = _
    rw [load_save h.ok]

/-- The tasks before a restart are there after it exactly when their descriptions are
trimmed and their deadlines have no white space. -/
theorem restart_same_iff (inputs : List (List Char)) (h : ∀ input ∈ inputs, '\n' ∉ input)
    (junk : Nat → Int × Int) :
    (restart junk (inputs.foldl exec empty)).tasks = (inputs.foldl exec empty).tasks ↔
      ∀ t ∈ (inputs.foldl exec empty).tasks, t.Plain := by
  have hsaved : (inputs.foldl exec empty).Saved :=
    List.foldlRecOn inputs exec empty_saved fun s hs input hinput => exec_saved hs (h input hinput)
  rw [restart_tasks hsaved]
  exact map_normal_eq_self

/-- A trimmed description, and deadlines of one word. -/
theorem restart_same_plain :
    (restart (fun _ => (0, 0))
        (["add a b, 2, x".toList, "update 1,c d,3,y".toList].foldl exec empty)).tasks =
      (["add a b, 2, x".toList, "update 1,c d,3,y".toList].foldl exec empty).tasks :=
  (restart_same_iff _ (by decide +kernel) _).mpr (by decide +kernel)

/-- `update` keeps the space after each comma, which the restart takes away. -/
theorem restart_trims_update :
    ¬ ∀ inputs : List (List Char), (∀ input ∈ inputs, '\n' ∉ input) → ∀ junk,
      (restart junk (inputs.foldl exec empty)).tasks = (inputs.foldl exec empty).tasks := by
  intro h
  have hsame := h ["add a, 1, x".toList, "update 1, b, 2, 2026-01-01".toList]
    (by decide +kernel) fun _ => (0, 0)
  revert hsame
  decide +kernel

/-! ## Any number of restarts -/

/-- A line of input, or a restart with what its uninitialised fields hold. -/
inductive Op where
  | line (input : List Char)
  | restart (junk : Nat → Int × Int)

def step (s : Store) : Op → Store
  | .line input => s.exec input
  | .restart junk => s.restart junk

/-- The ids of the tasks in memory. -/
def ids (s : Store) : List Int := s.tasks.map Task.id

structure Unique (s : Store) : Prop where
  distinct : s.ids.Nodup
  positive : ∀ id ∈ s.ids, 0 < id
  below : ∀ id ∈ s.ids, id < s.nextId

/-- The file holds the same ids as the memory: after a restart its texts may differ. -/
structure Kept (s : Store) : Prop where
  ok : ∀ t ∈ s.tasks, t.Ok
  file : s.file = none ∧ s.tasks = [] ∨
    ∃ tasks, s.file = some (save tasks) ∧ (∀ t ∈ tasks, t.Ok) ∧ tasks.map Task.id = s.ids

theorem exec_kept (h : s.Kept) (hinput : '\n' ∉ input) : (s.exec input).Kept := by
  have hok := exec_ok h.ok hinput
  refine ⟨hok, ?_⟩
  rcases exec_file (s := s) hinput with hsame | hfile
  · rw [hsame]
    exact h.file
  · exact .inr ⟨_, hfile, hok, rfl⟩

theorem restart_kept (h : s.Kept) (junk : Nat → Int × Int) :
    (s.restart junk).Kept ∧ (s.restart junk).ids = s.ids ∧
      (s.restart junk).nextId = s.ids.foldl loadNext 1 := by
  rcases h.file with ⟨hnone, hnil⟩ | ⟨tasks, hfile, hok, hids⟩
  · have hrestart : s.restart junk = { s with tasks := [], nextId := 1 } := by
      rw [restart, hnone]
    rw [hrestart, ids, ids, hnil]
    exact ⟨⟨fun _ ht => absurd ht List.not_mem_nil, .inl ⟨hnone, rfl⟩⟩, rfl, rfl⟩
  · have hrestart : s.restart junk = { s with
        tasks := tasks.map Task.normal
        nextId := s.ids.foldl loadNext 1 } := by
      rw [restart, hfile]
      show { s with tasks := (load junk (save tasks)).1, nextId := (load junk (save tasks)).2,
                    file := some (save tasks) } = _
      rw [load_save hok, hids]
    have hnormal : (tasks.map Task.normal).map Task.id = tasks.map Task.id := by
      rw [List.map_map]
      rfl
    rw [hrestart]
    refine ⟨⟨fun t ht => ?_, .inr ⟨tasks, hfile, hok, hnormal.symm⟩⟩, hnormal.trans hids, rfl⟩
    obtain ⟨u, hu, rfl⟩ := List.mem_map.mp ht
    exact (hok u hu).normal

/-! ## Ids -/

/-- Ids given out by a counter; `added` bounds both, until the last id an `int` can hold. -/
structure Counted (ids : List Int) (nextId added : Nat) : Prop where
  nodup : ids.Nodup
  pos : ∀ id ∈ ids, 0 < id
  le : ∀ id ∈ ids, id ≤ added
  lt : ∀ id ∈ ids, id < nextId
  start : 1 ≤ nextId
  next : added + 1 < 2 ^ 31 → nextId ≤ added + 1

theorem toInt_eq {n : Int} (hpos : 0 ≤ n) (hlt : n < 2 ^ 31) : toInt n = n :=
  Int.bmod_eq_of_le (by omega) (by omega)

theorem toSize_eq {n : Int} (hpos : 0 ≤ n) (hlt : n < 2 ^ 64) : (toSize n : Int) = n := by
  rw [toSize, Int.emod_eq_of_lt hpos hlt, Int.toNat_of_nonneg hpos]

variable {ids : List Int} {nextId added : Nat}

theorem Counted.add (h : Counted ids nextId added) (hlt : added + 1 < 2 ^ 31) :
    Counted (ids ++ [toInt nextId]) (toSize (nextId + 1)) (added + 1) := by
  have hnext := h.next hlt
  have hstart := h.start
  have hint : toInt nextId = nextId := toInt_eq (by omega) (by omega)
  have hsize : toSize (nextId + 1) = nextId + 1 := by
    have hcast := toSize_eq (n := nextId + 1) (by omega) (by omega)
    omega
  have hmem : ∀ id, id ∈ ids ++ [(nextId : Int)] → id ∈ ids ∨ id = nextId := fun id hid =>
    (List.mem_append.mp hid).imp_right List.mem_singleton.mp
  rw [hint, hsize]
  refine ⟨?_, fun id hid => ?_, fun id hid => ?_, fun id hid => ?_, by omega, by omega⟩
  · refine List.nodup_append.mpr ⟨h.nodup, List.nodup_singleton _, fun a ha b hb => ?_⟩
    rw [List.mem_singleton.mp hb]
    exact ne_of_lt (h.lt a ha)
  · rcases hmem id hid with hid | rfl
    · exact h.pos id hid
    · omega
  · rcases hmem id hid with hid | rfl
    · have hle := h.le id hid
      omega
    · omega
  · rcases hmem id hid with hid | rfl
    · have hlt' := h.lt id hid
      omega
    · omega

theorem Counted.sublist {ids' : List Int} (h : Counted ids nextId added)
    (hsub : ids'.Sublist ids) : Counted ids' nextId added :=
  ⟨h.nodup.sublist hsub, fun id hid => h.pos id (hsub.subset hid),
    fun id hid => h.le id (hsub.subset hid), fun id hid => h.lt id (hsub.subset hid), h.start,
    h.next⟩

/-- The counter is raised past an id, past every `int` if the id is the last one. -/
theorem loadNext_spec (nextId : Nat) {id : Int} (hpos : 0 < id) (hlt : id < 2 ^ 31) :
    nextId ≤ loadNext nextId id ∧ id < loadNext nextId id ∧
      (id + 1 < 2 ^ 31 → loadNext nextId id ≤ nextId ∨ (loadNext nextId id : Int) = id + 1) := by
  have hsize : (toSize id : Int) = id := toSize_eq (by omega) (by omega)
  rw [loadNext]
  split
  case isTrue hle =>
    by_cases hlast : id + 1 < 2 ^ 31
    · have hnext : (toSize (toInt (id + 1)) : Int) = id + 1 := by
        rw [toInt_eq (by omega) hlast, toSize_eq (by omega) (by omega)]
      omega
    · have hid : id = 2 ^ 31 - 1 := by omega
      have hnext : toSize (toInt (id + 1)) = 2 ^ 64 - 2 ^ 31 := by
        rw [hid]
        decide
      omega
  case isFalse hgt => omega

theorem foldl_loadNext (nextId : Nat) (h : ∀ id ∈ ids, 0 < id ∧ id ≤ added)
    (hadded : added < 2 ^ 31) :
    nextId ≤ ids.foldl loadNext nextId ∧ (∀ id ∈ ids, id < ids.foldl loadNext nextId) ∧
      (added + 1 < 2 ^ 31 → nextId ≤ added + 1 → ids.foldl loadNext nextId ≤ added + 1) := by
  induction ids generalizing nextId with
  | nil => exact ⟨le_refl _, fun id hid => absurd hid List.not_mem_nil, fun _ hle => hle⟩
  | cons id ids ih =>
      obtain ⟨hpos, hle⟩ := h id List.mem_cons_self
      obtain ⟨hmono, hpast, hbound⟩ := loadNext_spec nextId hpos (by omega)
      obtain ⟨ihmono, ihpast, ihbound⟩ :=
        ih (loadNext nextId id) fun i hi => h i (List.mem_cons_of_mem _ hi)
      rw [List.foldl_cons]
      refine ⟨hmono.trans ihmono, fun i hi => ?_, fun hroom hnext => ihbound hroom ?_⟩
      · rcases List.mem_cons.mp hi with rfl | hi
        · exact hpast.trans_le (Int.ofNat_le.mpr ihmono)
        · exact ihpast i hi
      · rcases hbound (by omega) with hsame | hraised
        · exact hsame.trans hnext
        · omega

theorem Counted.load (h : Counted ids nextId added) (hadded : added < 2 ^ 31) :
    Counted ids (ids.foldl loadNext 1) added := by
  obtain ⟨hstart, hpast, hbound⟩ := foldl_loadNext 1
    (fun id hid => ⟨h.pos id hid, h.le id hid⟩) hadded
  exact ⟨h.nodup, h.pos, h.le, hpast, hstart, fun hroom => hbound hroom (by omega)⟩

/-- What every operation keeps. -/
structure Inv (s : Store) : Prop where
  kept : s.Kept
  counted : s.added < 2 ^ 31 → Counted s.ids s.nextId s.added

theorem ids_update {id : Int} {description ddl : List Char} {priority : Int} :
    (s.update id description priority ddl).ids = s.ids := by
  rw [update]
  split
  · refine List.ext_getElem? fun i => ?_
    show ((s.tasks.modify _ _).map Task.id)[i]? = (s.tasks.map Task.id)[i]?
    rw [List.getElem?_map, List.getElem?_modify, List.getElem?_map, Option.map_eq_map,
      Option.map_map]
    congr 1
    funext t
    show Task.id (ite _ _ _) = t.id
    split
    · rfl
    · rfl
  · rfl

theorem exec_counted (h : s.added < 2 ^ 31 → Counted s.ids s.nextId s.added)
    (hinput : '\n' ∉ input) (hlt : (s.exec input).added < 2 ^ 31) :
    Counted (s.exec input).ids (s.exec input).nextId (s.exec input).added := by
  rcases exec_cases (s := s) hinput with hsame | ⟨d, p, dl, -, hadd⟩ | ⟨id, hremove⟩ |
    ⟨id, d, p, dl, -, hupdate⟩
  · rw [hsame] at hlt ⊢
    exact h hlt
  · rw [hadd] at hlt ⊢
    have hids : (s.add d p dl).ids = s.ids ++ [toInt s.nextId] := by
      simp [Store.ids, add]
    rw [hids]
    exact (h (Nat.lt_of_succ_lt hlt)).add hlt
  · rw [hremove, remove] at hlt ⊢
    split at hlt
    case isTrue hfound =>
      rw [if_pos hfound]
      exact (h hlt).sublist (List.eraseP_sublist.map Task.id)
    case isFalse hfound =>
      rw [if_neg hfound]
      exact h hlt
  · have hrest : (s.update id d p dl).nextId = s.nextId ∧
        (s.update id d p dl).added = s.added := by
      rw [update]
      split
      · exact ⟨rfl, rfl⟩
      · exact ⟨rfl, rfl⟩
    rw [hupdate, hrest.2] at hlt
    rw [hupdate, ids_update, hrest.1, hrest.2]
    exact h hlt

theorem step_inv (h : s.Inv) (op : Op) (hop : ∀ input, op = .line input → '\n' ∉ input) :
    (s.step op).Inv := by
  cases op with
  | line input =>
      have hinput := hop input rfl
      exact ⟨exec_kept h.kept hinput, exec_counted h.counted hinput⟩
  | restart junk =>
      obtain ⟨hkept, hids, hnext⟩ := restart_kept h.kept junk
      refine ⟨hkept, fun hlt => ?_⟩
      have hadded : (s.restart junk).added = s.added := by
        rw [restart]
        split
        · rfl
        · rfl
      rw [step, hadded] at hlt
      rw [step, hids, hnext, hadded]
      exact (h.counted hlt).load hlt

theorem empty_inv : empty.Inv := by
  refine ⟨⟨fun _ ht => absurd ht List.not_mem_nil, .inl ⟨rfl, rfl⟩⟩, fun _ => ?_⟩
  exact ⟨List.nodup_nil, fun _ hid => absurd hid List.not_mem_nil,
    fun _ hid => absurd hid List.not_mem_nil, fun _ hid => absurd hid List.not_mem_nil,
    Nat.le_refl 1, fun _ => Nat.le_refl 1⟩

/-- After any commands and restarts with fewer than 2^31 tasks added. -/
theorem ids_unique (ops : List Op) (h : ∀ input, .line input ∈ ops → '\n' ∉ input)
    (hadded : (ops.foldl step empty).added < 2 ^ 31) : (ops.foldl step empty).Unique := by
  have hinv : (ops.foldl step empty).Inv := by
    refine List.foldlRecOn ops step empty_inv fun s hs op hop => step_inv hs op ?_
    rintro input rfl
    exact h input hop
  have hcounted := hinv.counted hadded
  exact ⟨hcounted.nodup, hcounted.pos, hcounted.lt⟩

/-- The highest id is deleted, and given out again after the restart. -/
theorem ids_unique_restart :
    ([.line "add a, 1, x y".toList, .line "add b,, 2, z".toList, .line "add c, 3, ,".toList,
      .line "delete 2".toList, .restart fun _ => (7, 7),
      .line "add d, 1, ".toList].foldl step empty).Unique :=
  ids_unique _ (by simp +decide) (by decide +kernel)

end Store

end CKernel.Tasks
