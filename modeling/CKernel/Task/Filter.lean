/-
# `CKernel.Task.Filter` — the `filter` command

`filter_command::exec_impl` reads its options from the tokens of its arguments, in any
order, and `task_manager::filter` prints the tasks that meet all that were given.  An
option looks at how many tokens follow it: `-k` at one, `-d` at two, and `-p`, which
has one operand, at two as well.

    an option that is followed by enough tokens is stored     (`filterLoop_group`)
    so all are, in any order, but for a `-p` at the end       (`filterLoop_groups`)
    the command filters by what was given exactly when
      no `-p` is at the end, or its number is 0               (`filter_any_order_iff`)
    `filter -p 1` prints its usage                            (`filter_ignores_last_priority`)
-/
import CKernel.Task.TaskManager

namespace CKernel.Tasks

open Text

/-! ## The code -/

structure FilterArgs where
  keyword : List Char
  priority : Int
  dataSt : List Char
  dataEd : List Char
  deriving DecidableEq, Repr

/-- `filter_args f_args;` -/
def FilterArgs.init : FilterArgs := ⟨[], 0, [], []⟩

/-- `task::to_string()` -/
def Task.toText (t : Task) : List Char :=
  "ID: ".toList ++ showInt t.id ++ ", Description: ".toList ++ t.description ++
    ", Priority: ".toList ++ showInt t.priority ++ ", Deadline: ".toList ++ t.ddl

/-- The predicate of `-d` in `task_manager::filter`. -/
def inRange (dataSt dataEd : List Char) (t : Task) : Bool := dataSt ≤ t.ddl && t.ddl ≤ dataEd

/-- `preds` in `task_manager::filter` -/
def FilterArgs.preds (args : FilterArgs) : List (Task → Bool) :=
  (if args.keyword ≠ [] then [fun t : Task => decide (args.keyword <:+: t.description)] else []) ++
    (if args.priority ≠ 0 then [fun t : Task => decide (t.priority = args.priority)] else []) ++
    if args.dataSt ≠ [] ∧ args.dataEd ≠ [] then [inRange args.dataSt args.dataEd] else []

/-- `task_manager::filter(args)`, with the lines it prints. -/
def filter (tasks : List Task) (args : FilterArgs) : List (List Char) :=
  if args.preds = [] then
    ["Usage: filter -k <keyword> -p <priority>-d <date_begin> <date_end>".toList]
  else (tasks.filter fun t => args.preds.all fun pred => pred t).map Task.toText

def optionK : List Char := ['-', 'k']
def optionP : List Char := ['-', 'p']
def optionD : List Char := ['-', 'd']

/-- The loop over the tokens in `filter_command::exec_impl`, from the token at `i` on.
With fewer than two tokens behind it only `-k` can be taken, with none no option.
`none` is the return when the operand of `-p` is not a number; one out of range is
thrown. -/
def filterLoop : FilterArgs → List (List Char) → Except StoiError (Option FilterArgs)
  | fArgs, [] => .ok (some fArgs)
  | fArgs, [_] => .ok (some fArgs)
  | fArgs, [token, operand] =>
      if token = optionK then .ok (some { fArgs with keyword := operand }) else .ok (some fArgs)
  | fArgs, token :: operand :: next :: rest =>
      if token = optionK then filterLoop { fArgs with keyword := operand } (next :: rest)
      else if token = optionP then
        match stoi operand with
        | .ok (priority, _) => filterLoop { fArgs with priority := priority } (next :: rest)
        | .error .invalidArgument => .ok none
        | .error .outOfRange => .error .outOfRange
      else if token = optionD then filterLoop { fArgs with dataSt := operand, dataEd := next } rest
      else filterLoop fArgs (operand :: next :: rest)

/-- The arguments `filter_command::exec_impl` passes on, if it does. -/
def filterArgs (args : List Char) : Except StoiError (Option FilterArgs) :=
  filterLoop .init (words args)

/-- `filter_command::exec_impl(args)`, with the lines it prints. -/
def filterCommand (tasks : List Task) (args : List Char) : Except StoiError (List (List Char)) :=
  match filterArgs args with
  | .ok (some fArgs) => .ok (filter tasks fArgs)
  | .ok none => .ok [("Incorrect parameter format. Please use: " ++
      "filter -k <keyword> -p <proirity> -d <start> <end>").toList]
  | .error e => .error e

/-! ## What the results say -/

/-- An option with its operands. -/
inductive Group where
  | keyword (w : List Char)
  | priority (p : Numeral)
  | range (st ed : List Char)

/-- As it is written. -/
def Group.tokens : Group → List (List Char)
  | .keyword w => [optionK, w]
  | .priority p => [optionP, p.text]
  | .range st ed => [optionD, st, ed]

/-- The options given, each at most once. -/
structure Given where
  keyword : Option (List Char)
  priority : Option Numeral
  range : Option (List Char × List Char)

/-- In one order. -/
def Given.groups (g : Given) : List Group :=
  g.keyword.toList.map .keyword ++ g.priority.toList.map .priority ++
    g.range.toList.map fun r => .range r.1 r.2

/-- What they ask for. -/
def Given.args (g : Given) : FilterArgs where
  keyword := g.keyword.getD []
  priority := (g.priority.map Numeral.value).getD 0
  dataSt := (g.range.map Prod.fst).getD []
  dataEd := (g.range.map Prod.snd).getD []

/-- The command filters by what was given, whatever the tasks are. -/
structure FiltersBy (args : List Char) (g : Given) : Prop where
  passes : filterArgs args = .ok (some g.args)
  prints : ∀ tasks, filterCommand tasks args = .ok (filter tasks g.args)

/-- A `-p` with which the arguments end asks for nothing. -/
def LastPriorityIsZero (groups : List Group) : Prop :=
  ∀ p, groups.getLast? = some (.priority p) → p.value = 0

/-! ## One option -/

/-- What an option stores. -/
def Group.store (f : FilterArgs) : Group → FilterArgs
  | .keyword w => { f with keyword := w }
  | .priority p => { f with priority := p.value }
  | .range st ed => { f with dataSt := st, dataEd := ed }

variable {f : FilterArgs} {g : Given} {groups : List Group} {args : List Char}

theorem stoi_text (p : Numeral) : stoi p.text = .ok (p.value, p.text.length) := by
  have h : stoi ([] ++ p.text ++ []) = .ok (p.value, ([] : List Char).length + p.text.length) :=
    stoi_numeral p (fun d hd => absurd hd List.not_mem_nil)
      (fun d hd => absurd hd (Option.not_mem_none d))
  rwa [List.nil_append, List.append_nil, List.length_nil, Nat.zero_add] at h

/-- An option with enough tokens behind it. -/
theorem filterLoop_group {group : Group} {rest : List (List Char)}
    (h : ∀ p, group = .priority p → rest ≠ []) :
    filterLoop f (group.tokens ++ rest) = filterLoop (group.store f) rest := by
  cases group with
  | keyword w =>
      cases rest with
      | nil => rfl
      | cons => rfl
  | priority p =>
      cases rest with
      | nil => exact absurd rfl (h p rfl)
      | cons token rest =>
          show filterLoop f (optionP :: p.text :: token :: rest) = _
          rw [filterLoop, if_neg (by decide), if_pos rfl, stoi_text]
          rfl
  | range st ed => rfl

/-- A `-p` at the end has one token behind it, and is passed over. -/
theorem filterLoop_priority (p : Numeral) :
    filterLoop f (Group.priority p).tokens = .ok (some f) := rfl

theorem tokens_ne_nil (group : Group) : group.tokens ≠ [] := by
  cases group with
  | keyword => exact List.cons_ne_nil _ _
  | priority => exact List.cons_ne_nil _ _
  | range => exact List.cons_ne_nil _ _

/-! ## All options -/

/-- The last option. -/
def storeLast (f : FilterArgs) : Group → FilterArgs
  | .priority _ => f
  | group => group.store f

/-- All options are stored, but for a `-p` at the end. -/
theorem filterLoop_groups (groups : List Group) (last : Group) :
    filterLoop f ((groups ++ [last]).flatMap Group.tokens) =
      .ok (some (storeLast (groups.foldl Group.store f) last)) := by
  induction groups generalizing f with
  | nil =>
      rw [List.nil_append, List.flatMap_singleton, List.foldl_nil]
      cases last with
      | keyword w => rfl
      | priority p => exact filterLoop_priority p
      | range st ed => rfl
  | cons group groups ih =>
      rw [List.cons_append, List.flatMap_cons, filterLoop_group, ih, List.foldl_cons]
      intro p hp hnil
      rw [List.flatMap_append, List.flatMap_singleton] at hnil
      exact tokens_ne_nil last (List.append_eq_nil_iff.mp hnil).2

/-- Different options are stored in different places. -/
theorem store_comm {a b : Group} (ha : a ∈ g.groups) (hb : b ∈ g.groups) (f : FilterArgs) :
    b.store (a.store f) = a.store (b.store f) := by
  obtain ⟨keyword, priority, range⟩ := g
  simp only [Given.groups, List.mem_append, List.mem_map, Option.mem_toList] at ha hb
  rcases ha with (⟨w, hw, rfl⟩ | ⟨p, hp, rfl⟩) | ⟨r, hr, rfl⟩
  · rcases hb with (⟨w', hw', rfl⟩ | ⟨p', hp', rfl⟩) | ⟨r', hr', rfl⟩
    · rw [Option.mem_unique hw hw']
    · rfl
    · rfl
  · rcases hb with (⟨w', hw', rfl⟩ | ⟨p', hp', rfl⟩) | ⟨r', hr', rfl⟩
    · rfl
    · rw [Option.mem_unique hp hp']
    · rfl
  · rcases hb with (⟨w', hw', rfl⟩ | ⟨p', hp', rfl⟩) | ⟨r', hr', rfl⟩
    · rfl
    · rfl
    · rw [Option.mem_unique hr hr']

/-- Stored in any order, the options are the arguments asked for. -/
theorem foldl_store (hperm : groups.Perm g.groups) : groups.foldl Group.store .init = g.args := by
  have hcomm : ∀ a ∈ groups, ∀ b ∈ groups, ∀ f, b.store (a.store f) = a.store (b.store f) :=
    fun a ha b hb => store_comm (hperm.mem_iff.mp ha) (hperm.mem_iff.mp hb)
  rw [hperm.foldl_eq' hcomm]
  obtain ⟨_ | w, _ | p, _ | r⟩ := g <;> rfl

def Group.isPriority : Group → Bool
  | .priority _ => true
  | _ => false

theorem priority_of_foldl (h : ∀ group ∈ groups, group.isPriority = false) (f : FilterArgs) :
    (groups.foldl Group.store f).priority = f.priority := by
  induction groups generalizing f with
  | nil => rfl
  | cons group groups ih =>
      rw [List.foldl_cons, ih fun other hother => h other (List.mem_cons_of_mem _ hother)]
      have hgroup := h group List.mem_cons_self
      cases group with
      | keyword w => rfl
      | priority p => cases hgroup
      | range st ed => rfl

/-- One `-p` at most. -/
theorem no_other_priority {p : Numeral} (hperm : (groups ++ [Group.priority p]).Perm g.groups) :
    ∀ group ∈ groups, group.isPriority = false := by
  have hone : g.groups.countP Group.isPriority ≤ 1 := by
    obtain ⟨_ | w, _ | p, _ | r⟩ := g <;> exact Nat.le_of_ble_eq_true rfl
  rw [← hperm.countP_eq, List.countP_append, List.countP_singleton] at hone
  have hzero : groups.countP Group.isPriority = 0 := by
    simp only [Group.isPriority, if_true] at hone
    omega
  intro group hgroup
  exact Bool.eq_false_iff.mpr (List.countP_eq_zero.mp hzero group hgroup)

/-- The command filters by the options given, in whatever order they stand, exactly when
they do not end with a `-p` whose number is not 0. -/
theorem filter_any_order_iff (g : Given) {groups : List Group} (hperm : groups.Perm g.groups)
    {args : List Char} (hargs : words args = groups.flatMap Group.tokens) :
    FiltersBy args g ↔ LastPriorityIsZero groups := by
  have hiff : FiltersBy args g ↔ filterArgs args = .ok (some g.args) := by
    refine ⟨FiltersBy.passes, fun h => ⟨h, fun tasks => ?_⟩⟩
    rw [filterCommand, h]
  rw [hiff, filterArgs, hargs]
  have hall := foldl_store hperm
  rcases List.eq_nil_or_concat groups with rfl | ⟨before, last, rfl⟩
  · exact iff_of_true (congrArg (Except.ok ∘ some) hall) fun p hp => nomatch hp
  · rw [List.concat_eq_append] at hperm hall ⊢
    rw [filterLoop_groups, ← hall, List.foldl_append, List.foldl_cons, List.foldl_nil,
      Except.ok.injEq, Option.some.injEq, LastPriorityIsZero, List.getLast?_concat]
    cases last with
    | keyword w => exact iff_of_true rfl fun p hp => nomatch hp
    | range st ed => exact iff_of_true rfl fun p hp => nomatch hp
    | priority p =>
        have hzero : (before.foldl Group.store .init).priority = 0 :=
          priority_of_foldl (no_other_priority hperm) .init
        refine ⟨fun hsame q hq => ?_, fun h => ?_⟩
        · cases hq
          exact (congrArg FilterArgs.priority hsame).symm.trans hzero
        · have hvalue := h p rfl
          show before.foldl Group.store .init =
            { before.foldl Group.store .init with priority := p.value }
          rw [hvalue, ← hzero]

def one : Numeral := ⟨['1'], 1, by decide +kernel, by decide⟩

/-- `-p` first. -/
theorem filter_any_order_iff_first :
    FiltersBy "-p 1 -k sb".toList ⟨some "sb".toList, some one, none⟩ :=
  (filter_any_order_iff ⟨some "sb".toList, some one, none⟩
    (show [.priority one, .keyword "sb".toList].Perm (Given.groups _) from .swap _ _ _)
    (by decide +kernel)).mpr fun p hp => nomatch hp

/-- `filter -p 1`, which the README gives as an example, finds nothing it was given. -/
theorem filter_ignores_last_priority :
    ¬ ∀ (g : Given) (groups : List Group), groups.Perm g.groups →
      (∀ group ∈ groups, ∀ operand ∈ group.tokens.tail, operand ∉ [optionK, optionP, optionD]) →
        ∀ args, words args = groups.flatMap Group.tokens → FiltersBy args g := by
  intro h
  have hfilters := h ⟨none, some one, none⟩ [.priority one] (.refl _) (by decide +kernel)
    "-p 1".toList (by decide +kernel)
  have hpriority := congrArg (fun r : Except StoiError (Option FilterArgs) =>
    (r.toOption.join.map FilterArgs.priority)) hfilters.passes
  revert hpriority
  decide +kernel

end CKernel.Tasks
