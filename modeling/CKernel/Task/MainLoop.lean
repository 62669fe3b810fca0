/-
# `CKernel.Task.MainLoop` — the command loop of `main`

`main` reads a line, creates the command its first word names and executes it, in a
loop that only an `exit` line leaves.  `create` throws a `runtime_error` for a name
that is not registered; `std::stoi` throws an `invalid_argument` or an `out_of_range`,
which are no `runtime_error`s.  The first is caught around the command, the other two
are caught in it, or not at all.

    an iteration that goes on does what `Store.exec` says     (`turn_goesOn`)
    the tasks change only by arguments that parse             (`exec_of_not_parses`)
    an iteration throws for `ls` and for `filter`, where
      a number they convert is refused                        (`escapes_iff`)
    so every line completes but for these                     (`turn_completes_iff`)
    without an `exit` line the loop goes on for ever          (`loop_never_exits`)
    and with one it ends                                      (`loop_exits`)
-/
import CKernel.Task.Filter

namespace CKernel.Tasks

open Text

/-! ## The code -/

/-- The commands that are registered. -/
inductive Command where
  | add
  | delete
  | update
  | ls
  | filter
  deriving DecidableEq, Repr

/-- The name a command is registered under. -/
def Command.name : Command → List Char
  | .add => "add".toList
  | .delete => "delete".toList
  | .update => "update".toList
  | .ls => "ls".toList
  | .filter => "filter".toList

/-- `command_registry::create(name, tmgr)`; `none` is the `runtime_error`. -/
def create (name : List Char) : Option Command :=
  [.add, .delete, .update, .ls, .filter].find? fun cmd => cmd.name = name

/-- `ls_command::exec_impl(args)`, up to the `option` that `list` prints the tasks with. -/
def lsOption (args : List Char) : Except StoiError Int :=
  if args = [] then .ok 0 else (stoi args).map Prod.fst

/-- `exec_impl(args)` of a command.  The first three catch what `stoi` throws. -/
def execImpl (s : Store) (args : List Char) : Command → Except StoiError Store
  | .add => .ok (s.addCommand args)
  | .delete => .ok (s.delCommand args)
  | .update => .ok (s.updateCommand args)
  | .ls => (lsOption args).map fun _ => s
  | .filter => (filterArgs args).map fun _ => s

/-- `cmd` -/
def command (input : List Char) : List Char := input.takeWhile (· ≠ ' ')

/-- `args` -/
def arguments (input : List Char) : List Char := (input.dropWhile (· ≠ ' ')).drop 1

/-- How an iteration of the loop ends. -/
inductive Turn where
  | goesOn (s : Store)
  | exits
  | escapes (e : StoiError)

/-- An iteration, after `std::getline`. -/
def turn (s : Store) (input : List Char) : Turn :=
  if input = [] then .goesOn s
  else if command input = "exit".toList then .exits
  else
    match create (command input) with
    | none => .goesOn s
    | some cmd =>
        match execImpl s (arguments input) cmd with
        | .ok s => .goesOn s
        | .error e => .escapes e

/-- `std::cin`, the buffer `input`, and the task manager. -/
structure Machine where
  cin : Stream
  input : List Char
  store : Store

/-- The loop, so far. -/
inductive Loop where
  | running (m : Machine)
  | exited
  | threw (e : StoiError)

/-- One iteration; whether `std::getline` failed is not asked. -/
def loopStep (m : Machine) : Loop :=
  let (cin, input) := m.cin.getline m.input '\n'
  match turn m.store input with
  | .goesOn s => .running ⟨cin, input, s⟩
  | .exits => .exited
  | .escapes e => .threw e

/-- Up to `n` iterations. -/
def loop : Nat → Machine → Loop
  | 0, m => .running m
  | n + 1, m =>
      match loopStep m with
      | .running m => loop n m
      | ended => ended

/-- Before the loop, with `text` as the standard input. -/
def Machine.start (text : List Char) (s : Store) : Machine := ⟨.ofText text, [], s⟩

/-! ## What the results say -/

/-- The arguments have the form the command asks for. -/
inductive Parses : Command → List Char → Prop
  | add {d p t : List Char} {n : Int} {k : Nat} (hd : ',' ∉ d) (hp : ',' ∉ p) (hne : d ≠ [])
      (hn : stoi p = .ok (n, k)) : Parses .add (d ++ ',' :: (p ++ ',' :: t))
  | delete {args : List Char} {n : Int} (hn : stoi args = .ok (n, args.length)) :
      Parses .delete args
  | update {i d p t : List Char} {m n : Int} {j k : Nat} (hi : ',' ∉ i) (hd : ',' ∉ d)
      (hp : ',' ∉ p) (hm : stoi i = .ok (m, j)) (hn : stoi p = .ok (n, k)) :
      Parses .update (i ++ ',' :: (d ++ ',' :: (p ++ ',' :: t)))
  | lsAll : Parses .ls []
  | ls {args : List Char} {n : Int} {k : Nat} (hn : stoi args = .ok (n, k)) : Parses .ls args
  | filter {args : List Char} {f : FilterArgs} (hf : filterArgs args = .ok (some f)) :
      Parses .filter args

/-- Nothing is thrown out of the iteration, and arguments that do not parse leave the
tasks as they are. -/
structure Completes (s : Store) (input : List Char) : Prop where
  contained : ∀ e, turn s input ≠ .escapes e
  unchanged : ∀ s', turn s input = .goesOn s' →
    (∀ cmd, create (command input) = some cmd → ¬ Parses cmd (arguments input)) →
      s'.tasks = s.tasks

/-- The operands that the loop of `filter_command` converts, if it converts them all. -/
def priorityOperands : List (List Char) → List (List Char)
  | [] => []
  | [_] => []
  | [_, _] => []
  | token :: operand :: next :: rest =>
      if token = optionK then priorityOperands (next :: rest)
      else if token = optionP then operand :: priorityOperands (next :: rest)
      else if token = optionD then priorityOperands rest
      else priorityOperands (operand :: next :: rest)

/-- `stoi` throws. -/
def refused (str : List Char) : Bool := (stoi str).toOption.isNone

/-- `ls` has no arguments or a number, and the first operand of `-p` that `filter`
cannot convert, if there is one, is not out of range. -/
structure Harmless (input : List Char) : Prop where
  ls : command input = "ls".toList → arguments input = [] ∨ refused (arguments input) = false
  filter : command input = "filter".toList → ∀ operand,
    (priorityOperands (words (arguments input))).find? refused = some operand →
      stoi operand ≠ .error .outOfRange

variable {s s' : Store} {input args : List Char} {e : StoiError}

/-! ## An iteration that goes on -/

theorem create_name (cmd : Command) : create cmd.name = some cmd := by
  cases cmd <;> decide +kernel

theorem create_eq_some {name : List Char} {cmd : Command} :
    create name = some cmd ↔ name = cmd.name := by
  constructor
  · intro h
    have hname := List.find?_some h
    exact (of_decide_eq_true hname).symm
  · rintro rfl
    exact create_name cmd

theorem exec_eq : s.exec input =
    match create (command input) with
    | some .add => s.addCommand (arguments input)
    | some .delete => s.delCommand (arguments input)
    | some .update => s.updateCommand (arguments input)
    | _ => s := by
  have hexec : s.exec input =
      if command input = "add".toList then s.addCommand (arguments input)
      else if command input = "delete".toList then s.delCommand (arguments input)
      else if command input = "update".toList then s.updateCommand (arguments input)
      else s := rfl
  rw [hexec]
  split_ifs with hadd hdelete hupdate
  · rw [show command input = Command.name .add from hadd, create_name]
  · rw [show command input = Command.name .delete from hdelete, create_name]
  · rw [show command input = Command.name .update from hupdate, create_name]
  · split
    · rename_i hcreate
      exact absurd (create_eq_some.mp hcreate) hadd
    · rename_i hcreate
      exact absurd (create_eq_some.mp hcreate) hdelete
    · rename_i hcreate
      exact absurd (create_eq_some.mp hcreate) hupdate
    · rfl

theorem execImpl_ok {cmd : Command} (hcmd : create (command input) = some cmd)
    (h : execImpl s (arguments input) cmd = .ok s') : s' = s.exec input := by
  rw [exec_eq, hcmd]
  cases cmd with
  | add => exact (Except.ok.inj h).symm
  | delete => exact (Except.ok.inj h).symm
  | update => exact (Except.ok.inj h).symm
  | ls =>
      rw [execImpl] at h
      cases hoption : lsOption (arguments input) with
      | error e =>
          rw [hoption] at h
          cases h
      | ok n =>
          rw [hoption] at h
          exact (Except.ok.inj h).symm
  | filter =>
      rw [execImpl] at h
      cases hargs : filterArgs (arguments input) with
      | error e =>
          rw [hargs] at h
          cases h
      | ok f =>
          rw [hargs] at h
          exact (Except.ok.inj h).symm

/-- The iterations are those of the store, as far as they go on. -/
theorem turn_goesOn (h : turn s input = .goesOn s') : s' = s.exec input := by
  rw [turn] at h
  split at h
  case isTrue hnil =>
    cases h
    rw [hnil]
    rfl
  case isFalse =>
    split at h
    · cases h
    · split at h
      · rename_i hnone
        cases h
        rw [exec_eq, hnone]
      · rename_i cmd hcmd
        split at h
        · rename_i s₁ hok
          cases h
          exact execImpl_ok hcmd hok
        · cases h

/-! ## Arguments that do not parse -/

theorem addCommand_of_not_parses (h : ¬ Parses .add args) : s.addCommand args = s := by
  rw [Store.addCommand]
  cases h₁ : cut ',' args with
  | none => rfl
  | some p =>
      obtain ⟨description, args'⟩ := p
      cases h₂ : cut ',' args' with
      | none => simp only [h₂]
      | some p =>
          obtain ⟨priority, deadline⟩ := p
          simp only [h₂]
          split
          · rfl
          · rename_i hne
            split
            · rfl
            · rename_i n k hn
              rw [eq_of_cut h₁, eq_of_cut h₂] at h
              exact absurd (.add (cut_eq_some h₁).1 (cut_eq_some h₂).1 hne hn) h

theorem delCommand_of_not_parses (h : ¬ Parses .delete args) : s.delCommand args = s := by
  rw [Store.delCommand]
  split
  · rfl
  · rename_i id idx hid
    split
    · rfl
    · rename_i hall
      rw [Decidable.not_not.mp hall] at hid
      exact absurd (.delete hid) h

theorem updateCommand_of_not_parses (h : ¬ Parses .update args) : s.updateCommand args = s := by
  rw [Store.updateCommand]
  cases h₁ : cut ',' args with
  | none => rfl
  | some p =>
      obtain ⟨id, args₁⟩ := p
      cases h₂ : cut ',' args₁ with
      | none => simp only [h₂]
      | some p =>
          obtain ⟨description, args₂⟩ := p
          cases h₃ : cut ',' args₂ with
          | none => simp only [h₂, h₃]
          | some p =>
              obtain ⟨priority, ddl⟩ := p
              simp only [h₂, h₃]
              split
              · rename_i m j n k hm hn
                rw [eq_of_cut h₁, eq_of_cut h₂, eq_of_cut h₃] at h
                refine absurd ?_ h
                exact .update (cut_eq_some h₁).1 (cut_eq_some h₂).1 (cut_eq_some h₃).1 hm hn
              · rfl

theorem exec_of_not_parses
    (h : ∀ cmd, create (command input) = some cmd → ¬ Parses cmd (arguments input)) :
    s.exec input = s := by
  rw [exec_eq]
  split
  · rename_i hcmd
    exact addCommand_of_not_parses (h _ hcmd)
  · rename_i hcmd
    exact delCommand_of_not_parses (h _ hcmd)
  · rename_i hcmd
    exact updateCommand_of_not_parses (h _ hcmd)
  · rfl

/-! ## What is thrown -/

theorem lsOption_error :
    (∃ e, lsOption args = .error e) ↔ ¬ (args = [] ∨ refused args = false) := by
  rw [lsOption, refused]
  by_cases hargs : args = []
  · simp [hargs]
  · rw [if_neg hargs]
    cases stoi args with
    | error e => simp [hargs, Except.map, Except.toOption]
    | ok n => simp [hargs, Except.map, Except.toOption]

/-- The loop throws at the first operand it cannot convert, if that is out of range. -/
theorem filterLoop_error (tokens : List (List Char)) (f : FilterArgs) :
    (∃ e, filterLoop f tokens = .error e) ↔
      ∃ operand, (priorityOperands tokens).find? refused = some operand ∧
        stoi operand = .error .outOfRange := by
  induction tokens using priorityOperands.induct generalizing f with
  | case1 => simp [filterLoop, priorityOperands]
  | case2 => simp [filterLoop, priorityOperands]
  | case3 token operand =>
      rw [filterLoop]
      split <;> simp [priorityOperands]
  | case4 operand next rest ih =>
      rw [filterLoop, if_pos rfl, priorityOperands, if_pos rfl]
      exact ih _
  | case5 operand next rest hk ih =>
      rw [filterLoop, if_neg hk, if_pos rfl, priorityOperands, if_neg hk, if_pos rfl]
      cases hstoi : stoi operand with
      | ok p =>
          have hfine : ¬ refused operand = true := by simp [refused, hstoi, Except.toOption]
          rw [List.find?_cons_of_neg hfine]
          exact ih _
      | error e =>
          have hrefused : refused operand = true := by simp [refused, hstoi, Except.toOption]
          rw [List.find?_cons_of_pos hrefused]
          cases e with
          | invalidArgument => simp [hstoi]
          | outOfRange => simp [hstoi]
  | case6 operand next rest hk hp ih =>
      rw [filterLoop, if_neg hk, if_neg hp, if_pos rfl, priorityOperands, if_neg hk, if_neg hp,
        if_pos rfl]
      exact ih _
  | case7 token operand next rest hk hp hd ih =>
      rw [filterLoop, if_neg hk, if_neg hp, if_neg hd, priorityOperands, if_neg hk, if_neg hp,
        if_neg hd]
      exact ih _

theorem execImpl_error {cmd : Command} :
    (∃ e, execImpl s args cmd = .error e) ↔
      cmd = .ls ∧ ¬ (args = [] ∨ refused args = false) ∨
        cmd = .filter ∧ ∃ operand,
          (priorityOperands (words args)).find? refused = some operand ∧
            stoi operand = .error .outOfRange := by
  have hmap : ∀ {α : Type} (r : Except StoiError α),
      (∃ e, (r.map fun _ => s) = .error e) ↔ ∃ e, r = .error e := by
    intro α r
    cases r with
    | error e => simp [Except.map]
    | ok a => simp [Except.map]
  cases cmd with
  | add => simp [execImpl]
  | delete => simp [execImpl]
  | update => simp [execImpl]
  | ls =>
      rw [execImpl, hmap, lsOption_error]
      simp
  | filter =>
      rw [execImpl, hmap, filterArgs, filterLoop_error]
      simp

/-- A line that names a command is neither empty nor `exit`. -/
theorem turn_of_create {cmd : Command} (h : create (command input) = some cmd) :
    turn s input =
      match execImpl s (arguments input) cmd with
      | .ok s => .goesOn s
      | .error e => .escapes e := by
  have hempty : input ≠ [] := by
    rintro rfl
    have hnone : create (command []) = none := by decide +kernel
    rw [hnone] at h
    cases h
  have hexit : command input ≠ "exit".toList := by
    intro hexit
    have hnone : create "exit".toList = none := by decide +kernel
    rw [hexit, hnone] at h
    cases h
  rw [turn, if_neg hempty, if_neg hexit, h]

theorem turn_of_not_created (h : create (command input) = none) : turn s input ≠ .escapes e := by
  rw [turn]
  split
  · exact Turn.noConfusion
  · split
    · exact Turn.noConfusion
    · rw [h]
      exact Turn.noConfusion

theorem escapes_iff : (∃ e, turn s input = .escapes e) ↔ ¬ Harmless input := by
  have hharmless : ¬ Harmless input ↔
      create (command input) = some .ls ∧
          ¬ (arguments input = [] ∨ refused (arguments input) = false) ∨
        create (command input) = some .filter ∧ ∃ operand,
          (priorityOperands (words (arguments input))).find? refused = some operand ∧
            stoi operand = .error .outOfRange := by
    rw [create_eq_some, create_eq_some]
    constructor
    · intro h
      by_contra hnone
      rw [not_or, not_and_not_right, not_and] at hnone
      refine h ⟨hnone.1, fun hname operand hfind hstoi => ?_⟩
      exact hnone.2 hname ⟨operand, hfind, hstoi⟩
    · rintro (⟨hname, hrefused⟩ | ⟨hname, operand, hfind, hstoi⟩) h
      · exact hrefused (h.ls hname)
      · exact h.filter hname operand hfind hstoi
  rw [hharmless]
  cases hcreate : create (command input) with
  | none =>
      refine iff_of_false (fun ⟨e, h⟩ => turn_of_not_created hcreate h) ?_
      rintro (⟨h, -⟩ | ⟨h, -⟩) <;> cases h
  | some cmd =>
      have herror : (∃ e, turn s input = .escapes e) ↔
          ∃ e, execImpl s (arguments input) cmd = .error e := by
        rw [turn_of_create hcreate]
        cases execImpl s (arguments input) cmd with
        | ok s' => exact iff_of_false (fun ⟨e, h⟩ => nomatch h) fun ⟨e, h⟩ => nomatch h
        | error e => exact iff_of_true ⟨e, rfl⟩ ⟨e, rfl⟩
      rw [herror, execImpl_error, Option.some.injEq, Option.some.injEq]

/-- For every store and every line: the iteration completes, and arguments that do not
parse leave the tasks as they are, exactly when the line is not an `ls` or a `filter`
with a number that is refused. -/
theorem turn_completes_iff (s : Store) (input : List Char) :
    Completes s input ↔ Harmless input := by
  constructor
  · intro h
    by_contra hharmful
    obtain ⟨e, he⟩ := (escapes_iff (s := s)).mpr hharmful
    exact h.contained e he
  · intro h
    refine ⟨fun e he => escapes_iff.mp ⟨e, he⟩ h, fun s' hs' hparse => ?_⟩
    rw [turn_goesOn hs', exec_of_not_parses hparse]

/-- `ls x`: `std::stoi` throws an `invalid_argument`, which nobody catches. -/
theorem ls_kills_main : ¬ ∀ (s : Store) (input : List Char), Completes s input := by
  intro h
  exact (h .empty "ls x".toList).contained .invalidArgument rfl

/-! ## The loop -/

theorem turn_exits : turn s input = .exits ↔ command input = "exit".toList := by
  rw [turn]
  split
  case isTrue hnil =>
    rw [hnil]
    refine iff_of_false Turn.noConfusion ?_
    decide +kernel
  case isFalse =>
    split
    case isTrue hexit => exact iff_of_true rfl hexit
    case isFalse hexit =>
      refine iff_of_false ?_ hexit
      split
      · exact Turn.noConfusion
      · split <;> exact Turn.noConfusion

section Getline
variable {rest old : List Char} {cin : Stream}

/-- The last line of the input, if it has no newline. -/
theorem getline_last (h : '\n' ∉ rest) :
    (Stream.ofText rest).getline old '\n' = (⟨[], true, rest = []⟩, rest) := by
  have hall : ∀ c ∈ rest, decide (c ≠ '\n') = true := by
    intro c hc
    refine decide_eq_true ?_
    rintro rfl
    exact h hc
  rw [Stream.getline, Stream.ofText, List.takeWhile_eq_self_iff.mpr hall,
    List.dropWhile_eq_nil_iff.mpr hall]
  rfl

/-- After the end of the input the line stays what it was. -/
theorem getline_ended (h : cin.good = false) :
    cin.getline old '\n' = ({ cin with fail := true }, old) := by
  rw [Stream.getline, h]
  rfl

end Getline

theorem loopStep_eq {m : Machine} {cin : Stream} {line : List Char}
    (h : m.cin.getline m.input '\n' = (cin, line)) :
    loopStep m =
      match turn m.store line with
      | .goesOn s => .running ⟨cin, line, s⟩
      | .exits => .exited
      | .escapes e => .threw e := by
  rw [loopStep, h]

/-- No `exit` line is left to be read, or can be read again. -/
inductive Endless : Machine → Prop
  | reading {rest input : List Char} {s : Store}
      (h : ∀ line ∈ lines rest, command line ≠ "exit".toList) : Endless ⟨.ofText rest, input, s⟩
  | ended {cin : Stream} {input : List Char} {s : Store} (hcin : cin.good = false)
      (h : command input ≠ "exit".toList) : Endless ⟨cin, input, s⟩

/-- What `std::getline` leaves the loop with. -/
theorem endless_getline {m : Machine} (h : Endless m) :
    ∃ cin line, m.cin.getline m.input '\n' = (cin, line) ∧ command line ≠ "exit".toList ∧
      ∀ s, Endless ⟨cin, line, s⟩ := by
  cases h with
  | @reading rest input s h =>
      by_cases hnewline : '\n' ∈ rest
      · obtain ⟨line, after, rfl, hline⟩ := List.eq_append_cons_of_mem hnewline
        rw [lines_append hline] at h
        refine ⟨_, _, Stream.getline_append hline, h line List.mem_cons_self,
          fun s => .reading fun l hl => ?_⟩
        exact h l (List.mem_cons_of_mem _ hl)
      · have hlast : command rest ≠ "exit".toList := by
          by_cases hrest : rest = []
          · rw [hrest]
            decide +kernel
          · refine h rest ?_
            rw [lines_of_not_mem hnewline, if_neg hrest]
            exact List.mem_singleton_self rest
        exact ⟨_, _, getline_last hnewline, hlast, fun s => .ended rfl hlast⟩
  | ended hcin h =>
      exact ⟨_, _, getline_ended hcin, h, fun s => .ended (by simp [Stream.good]) h⟩

theorem loop_never_exits {m : Machine} (h : Endless m) (n : Nat) : loop n m ≠ .exited := by
  induction n generalizing m with
  | zero => exact Loop.noConfusion
  | succ n ih =>
      obtain ⟨cin, line, hgetline, hline, hnext⟩ := endless_getline h
      rw [loop, loopStep_eq hgetline]
      cases hturn : turn m.store line with
      | goesOn s => exact ih (hnext s)
      | exits => exact absurd (turn_exits.mp hturn) hline
      | escapes e => exact Loop.noConfusion

/-- An `exit` line is read, if nothing is thrown before. -/
theorem loop_exits {rest : List Char} (h : ∃ line ∈ lines rest, command line = "exit".toList)
    (input : List Char) (s : Store)
    (hthrow : ∀ n e, loop n ⟨.ofText rest, input, s⟩ ≠ .threw e) :
    ∃ n, loop n ⟨.ofText rest, input, s⟩ = .exited := by
  induction hlen : rest.length using Nat.strong_induction_on generalizing rest input s with
  | _ len ih =>
    subst hlen
    by_cases hnewline : '\n' ∈ rest
    · obtain ⟨line, after, rfl, hline⟩ := List.eq_append_cons_of_mem hnewline
      have hgetline := @Stream.getline_append '\n' after line input hline
      cases hturn : turn s line with
      | exits =>
          refine ⟨1, ?_⟩
          rw [loop, loopStep_eq hgetline, hturn]
      | escapes e =>
          refine absurd ?_ (hthrow 1 e)
          rw [loop, loopStep_eq hgetline, hturn]
      | goesOn s' =>
          have hloop : ∀ n, loop (n + 1) ⟨.ofText (line ++ '\n' :: after), input, s⟩ =
              loop n ⟨.ofText after, line, s'⟩ := by
            intro n
            rw [loop, loopStep_eq hgetline, hturn]
          have hafter : ∃ l ∈ lines after, command l = "exit".toList := by
            obtain ⟨l, hl, hexit⟩ := h
            rw [lines_append hline] at hl
            rcases List.mem_cons.mp hl with rfl | hl
            · rw [turn_exits.mpr hexit] at hturn
              cases hturn
            · exact ⟨l, hl, hexit⟩
          have hshorter : after.length < (line ++ '\n' :: after).length := by
            rw [List.length_append, List.length_cons]
            omega
          obtain ⟨n, hn⟩ := ih after.length hshorter hafter line s'
            (fun n e => hloop n ▸ hthrow (n + 1) e) rfl
          exact ⟨n + 1, (hloop n).trans hn⟩
    · obtain ⟨line, hline, hexit⟩ := h
      rw [lines_of_not_mem hnewline] at hline
      split at hline
      · cases hline
      · rw [List.mem_singleton.mp hline] at hexit
        refine ⟨1, ?_⟩
        rw [loop, loopStep_eq (getline_last hnewline), turn_exits.mpr hexit]

/-- For every finite input on which no command throws, the loop ends exactly when a line
of it names `exit`. -/
theorem loop_ends_iff (text : List Char) (s : Store)
    (hthrow : ∀ n e, loop n (.start text s) ≠ .threw e) :
    (∃ n, loop n (.start text s) = .exited) ↔
      ∃ line ∈ lines text, command line = "exit".toList := by
  constructor
  · intro ⟨n, hn⟩
    by_contra hnone
    refine loop_never_exits (.reading fun line hline hexit => ?_) n hn
    exact hnone ⟨line, hline, hexit⟩
  · intro h
    exact loop_exits h [] s hthrow

/-- `exit` without a newline. -/
theorem loop_ends_iff_exit : ∃ n, loop n (.start "exit".toList .empty) = .exited := by
  refine (loop_ends_iff "exit".toList .empty fun n e => ?_).mpr
    ⟨"exit".toList, by decide +kernel, by decide +kernel⟩
  cases n with
  | zero => exact Loop.noConfusion
  | succ n => exact Loop.noConfusion

/-- At the end of an input that ended with a newline the loop reads empty lines. -/
theorem loop_at_end (n : Nat) {cin : Stream} (h : cin.rest = []) (s : Store) :
    ∃ m, loop n ⟨cin, [], s⟩ = .running m := by
  induction n generalizing cin with
  | zero => exact ⟨_, rfl⟩
  | succ n ih =>
      have hgetline : ∃ cin', cin.getline [] '\n' = (cin', []) ∧ cin'.rest = [] := by
        rw [Stream.getline, h]
        split
        · exact ⟨_, rfl, rfl⟩
        · exact ⟨_, rfl, rfl⟩
      obtain ⟨cin', hgetline, hrest⟩ := hgetline
      obtain ⟨m, hm⟩ := ih hrest
      exact ⟨m, by rw [loop, loopStep_eq hgetline]; exact hm⟩

/-- The empty input. -/
theorem loop_reads_on :
    ¬ ∀ (text : List Char) (s : Store), (∀ n e, loop n (.start text s) ≠ .threw e) →
      ∃ n, loop n (.start text s) = .exited := by
  intro h
  obtain ⟨n, hn⟩ := h [] .empty fun n e he => by
    obtain ⟨m, hm⟩ := @loop_at_end n (.ofText []) rfl .empty
    rw [Machine.start, hm] at he
    cases he
  obtain ⟨m, hm⟩ := @loop_at_end n (.ofText []) rfl .empty
  rw [Machine.start, hm] at hn
  cases hn

end CKernel.Tasks
