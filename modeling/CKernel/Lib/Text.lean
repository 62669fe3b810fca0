/-
# `CKernel.Lib.Text` — formatted text input and output

Strings are lists of characters.  An input stream is the text not yet read with its
`eofbit` and `failbit`; every extraction starts with a sentry that gives up unless
the stream is good, and leaves the variable it would have set as it was.

    an `int` is read back as it was written          (`readInt_showInt`)
    so is a field, up to its delimiter               (`getline_append`)
    the lines of a text                              (`lines_append`)
    trimming keeps exactly the trimmed texts         (`trim_eq_self`)
    a word is read back if it has no white space     (`word_eq_self`)
    `stoi` reads a number between blanks             (`stoi_numeral`)
    a text is cut at the first delimiter             (`cut_append`, `eq_of_cut`)
-/
import CKernel.Lib.Lines

namespace CKernel.Text

/-! ## Characters and numbers -/

/-- `isspace` -/
def isSpace (c : Char) : Bool := c ∈ [' ', '\t', '\n', '\x0b', '\x0c', '\r']

/-- The characters of `" \t"`. -/
def blank (c : Char) : Bool := c = ' ' || c = '\t'

/-- From `find_first_not_of(" \t")` to `find_last_not_of(" \t")`. -/
def trim (str : List Char) : List Char := (str.dropWhile blank).rdropWhile blank

/-- What an `int` can hold. -/
def IsInt (n : Int) : Prop := -2 ^ 31 ≤ n ∧ n < 2 ^ 31

instance (n : Int) : Decidable (IsInt n) := inferInstanceAs (Decidable (_ ∧ _))

/-- Decimal notation. -/
def showInt : Int → List Char
  | .ofNat n => Nat.toDigits 10 n
  | .negSucc n => '-' :: Nat.toDigits 10 (n + 1)

/-- The digits in front of a text, and what follows them. -/
def scanNat (str : List Char) : Option (Nat × List Char) :=
  match str.takeWhile Char.isDigit with
  | [] => none
  | digits => some (Nat.ofDigitChars 10 digits 0, str.dropWhile Char.isDigit)

/-- The same with a sign. -/
def scanInt : List Char → Option (Int × List Char)
  | '-' :: str => (scanNat str).map fun (n, rest) => (-(n : Int), rest)
  | '+' :: str => (scanNat str).map fun (n, rest) => ((n : Int), rest)
  | str => (scanNat str).map fun (n, rest) => ((n : Int), rest)

inductive StoiError where
  | invalidArgument
  | outOfRange
  deriving DecidableEq, Repr

/-- `std::stoi`: the number, and how many characters were read. -/
def stoi (str : List Char) : Except StoiError (Int × Nat) :=
  match scanInt (str.dropWhile isSpace) with
  | none => .error .invalidArgument
  | some (n, rest) =>
      if IsInt n then .ok (n, str.length - rest.length) else .error .outOfRange

/-- The text before and after the first `c`. -/
def cut (c : Char) (str : List Char) : Option (List Char × List Char) :=
  match str.dropWhile (· ≠ c) with
  | [] => none
  | _ :: rest => some (str.takeWhile (· ≠ c), rest)

/-- What `while (std::getline(is, line))` reads. -/
def lines (str : List Char) : List (List Char) := Lines.allLines '\n' str

/-- What `while (is >> token)` reads, from a token that is begun. -/
def wordsFrom (token : List Char) : List Char → List (List Char)
  | [] => if token = [] then [] else [token]
  | c :: str =>
      if isSpace c then
        if token = [] then wordsFrom [] str else token :: wordsFrom [] str
      else wordsFrom (token ++ [c]) str

def words (str : List Char) : List (List Char) := wordsFrom [] str

/-! ## Streams -/

structure Stream where
  rest : List Char
  eof : Bool
  fail : Bool
  deriving DecidableEq, Repr

namespace Stream

/-- `std::istringstream iss(str)` -/
def ofText (str : List Char) : Stream := ⟨str, false, false⟩

def good (is : Stream) : Bool := !is.eof && !is.fail

/-- The sentry of `>>`. -/
def skipws (is : Stream) : Stream :=
  if is.good then
    match is.rest.dropWhile isSpace with
    | [] => ⟨[], true, true⟩
    | rest => { is with rest := rest }
  else { is with fail := true }

/-- `is >> n`, with the value of `n` before -/
def readInt (is : Stream) (n : Int) : Stream × Int :=
  let is := is.skipws
  if is.fail then (is, n)
  else
    match scanInt is.rest with
    | none => ({ is with fail := true }, 0)
    | some (v, rest) =>
        if v < -2 ^ 31 then (⟨rest, rest = [], true⟩, -2 ^ 31)
        else if 2 ^ 31 ≤ v then (⟨rest, rest = [], true⟩, 2 ^ 31 - 1)
        else (⟨rest, rest = [], false⟩, v)

/-- `is >> c`, for a `char c` that is not used -/
def readChar (is : Stream) : Stream :=
  let is := is.skipws
  if is.fail then is else { is with rest := is.rest.drop 1 }

/-- `is >> str` -/
def readWord (is : Stream) (str : List Char) : Stream × List Char :=
  let is := is.skipws
  if is.fail then (is, str)
  else
    let rest := is.rest.dropWhile (!isSpace ·)
    (⟨rest, rest = [], false⟩, is.rest.takeWhile (!isSpace ·))

/-- `std::getline(is, str, delim)` -/
def getline (is : Stream) (str : List Char) (delim : Char) : Stream × List Char :=
  if is.good then
    let line := is.rest.takeWhile (· ≠ delim)
    match is.rest.dropWhile (· ≠ delim) with
    | [] => (⟨[], true, line = []⟩, line)
    | _ :: rest => (⟨rest, false, false⟩, line)
  else ({ is with fail := true }, str)

end Stream

/-! ## Numbers are read back -/

variable {c : Char} {n : Int} {str rest : List Char}

theorem scanNat_toDigits {n : Nat} (hc : c.isDigit = false) :
    scanNat (Nat.toDigits 10 n ++ c :: rest) = some (n, c :: rest) := by
  have hdigits : ∀ d ∈ Nat.toDigits 10 n, d.isDigit = true := fun d hd =>
    Nat.isDigit_of_mem_toDigits (by decide) (by decide) hd
  have htake : (Nat.toDigits 10 n ++ c :: rest).takeWhile Char.isDigit = Nat.toDigits 10 n := by
    rw [List.takeWhile_append_of_pos hdigits, List.takeWhile_cons_of_neg (by simp [hc]),
      List.append_nil]
  have hdrop : (Nat.toDigits 10 n ++ c :: rest).dropWhile Char.isDigit = c :: rest := by
    rw [List.dropWhile_append_of_pos hdigits, List.dropWhile_cons_of_neg (by simp [hc])]
  rw [scanNat, htake, hdrop]
  split
  case h_1 hnil => exact absurd hnil Nat.toDigits_ne_nil
  case h_2 => rw [Nat.ofDigitChars_ten_toDigits]

theorem scanInt_of_digit {d : Char} (hd : d.isDigit = true) :
    scanInt (d :: str) = (scanNat (d :: str)).map fun (n, rest) => ((n : Int), rest) := by
  rw [scanInt]
  · rintro s ⟨rfl, -⟩
    cases hd
  · rintro s ⟨rfl, -⟩
    cases hd

theorem scanInt_showInt (hc : c.isDigit = false) :
    scanInt (showInt n ++ c :: rest) = some (n, c :: rest) := by
  cases n with
  | ofNat n =>
      obtain ⟨d, ds, hds⟩ := List.exists_cons_of_ne_nil (Nat.toDigits_ne_nil (b := 10) (n := n))
      have hd : d.isDigit = true := by
        refine Nat.isDigit_of_mem_toDigits (n := n) (b := 10) (by decide) (by decide) ?_
        rw [hds]
        exact List.mem_cons_self
      have hscan : scanNat (Nat.toDigits 10 n ++ c :: rest) = some (n, c :: rest) :=
        scanNat_toDigits hc
      rw [showInt, hds, List.cons_append, scanInt_of_digit hd, ← List.cons_append, ← hds, hscan]
      rfl
  | negSucc n =>
      rw [showInt, List.cons_append, scanInt, scanNat_toDigits hc]
      rfl

/-- What a number is written with. -/
theorem mem_showInt (h : c ∈ showInt n) : c.isDigit = true ∨ c = '-' := by
  cases n with
  | ofNat n => exact .inl (Nat.isDigit_of_mem_toDigits (by decide) (by decide) h)
  | negSucc n =>
      rcases List.mem_cons.mp h with rfl | h
      · exact .inr rfl
      · exact .inl (Nat.isDigit_of_mem_toDigits (by decide) (by decide) h)

theorem showInt_ne_nil : showInt n ≠ [] := by
  cases n with
  | ofNat n => exact Nat.toDigits_ne_nil
  | negSucc n => exact List.cons_ne_nil _ _

theorem not_mem_showInt (hdigit : c.isDigit = false) (hsign : c ≠ '-') : c ∉ showInt n := by
  intro h
  rcases mem_showInt h with hc | hc
  · rw [hdigit] at hc
    cases hc
  · exact hsign hc

theorem isSpace_of_mem_showInt (h : c ∈ showInt n) : isSpace c = false := by
  by_contra hspace
  rw [Bool.not_eq_false, isSpace, decide_eq_true_eq] at hspace
  simp only [List.mem_cons, List.not_mem_nil, or_false] at hspace
  rcases hspace with rfl | rfl | rfl | rfl | rfl | rfl <;>
    exact not_mem_showInt (by decide) (by decide) h

/-! ## Numbers in front of other text -/

theorem isDigit_of_scanNat {n : Nat} (h : scanNat str = some (n, [])) :
    ∀ d ∈ str, d.isDigit = true := by
  intro d hd
  rw [scanNat] at h
  split at h
  case h_1 => cases h
  case h_2 =>
    have hdrop : str.dropWhile Char.isDigit = [] := congrArg Prod.snd (Option.some.inj h)
    exact List.dropWhile_eq_nil_iff.mp hdrop d hd

theorem scanNat_append {n : Nat} (h : scanNat str = some (n, []))
    (hrest : ∀ d ∈ rest.head?, d.isDigit = false) : scanNat (str ++ rest) = some (n, rest) := by
  have hall := isDigit_of_scanNat h
  have htake : rest.takeWhile Char.isDigit = [] ∧ rest.dropWhile Char.isDigit = rest := by
    cases rest with
    | nil => exact ⟨rfl, rfl⟩
    | cons d rest =>
        have hd := hrest d rfl
        exact ⟨List.takeWhile_cons_of_neg (by simp [hd]), List.dropWhile_cons_of_neg (by simp [hd])⟩
  have hself : str.takeWhile Char.isDigit = str := List.takeWhile_eq_self_iff.mpr hall
  rw [scanNat, hself, List.dropWhile_eq_nil_iff.mpr hall] at h
  rw [scanNat, List.takeWhile_append_of_pos hall, List.dropWhile_append_of_pos hall, htake.1,
    htake.2, List.append_nil]
  split at h
  case h_1 => cases h
  case h_2 => 
    cases h
    rfl

/-- Only a text that begins with `-` or `+` is read with a sign. -/
theorem scanInt_cons (hminus : c ≠ '-') (hplus : c ≠ '+') :
    scanInt (c :: str) = (scanNat (c :: str)).map fun (n, rest) => ((n : Int), rest) := by
  rw [scanInt]
  · intro s hs
    exact hminus (List.cons.inj hs).1
  · intro s hs
    exact hplus (List.cons.inj hs).1

theorem scanInt_append (h : scanInt str = some (n, []))
    (hrest : ∀ d ∈ rest.head?, d.isDigit = false) : scanInt (str ++ rest) = some (n, rest) := by
  -- the digits after the sign, if there is one
  have hscan : ∀ (f : Nat → Int) (digits : List Char),
      (scanNat digits).map (fun (m, rest) => (f m, rest)) = some (n, []) →
        (scanNat (digits ++ rest)).map (fun (m, rest) => (f m, rest)) = some (n, rest) := by
    intro f digits hdigits
    obtain ⟨⟨m, rest'⟩, hm, hfm⟩ := Option.map_eq_some_iff.mp hdigits
    cases hfm
    rw [scanNat_append hm hrest, Option.map_some]
  cases str with
  | nil => cases h
  | cons c str =>
      rw [List.cons_append]
      by_cases hminus : c = '-'
      · subst hminus
        exact hscan (fun m => -m) str h
      · by_cases hplus : c = '+'
        · subst hplus
          exact hscan (fun m => m) str h
        · rw [scanInt_cons hminus hplus] at h ⊢
          exact hscan (fun m => m) (c :: str) h

/-- The first character of a number. -/
theorem isSpace_of_scanInt {p : Int × List Char} (h : scanInt (c :: str) = some p) :
    isSpace c = false := by
  by_contra hspace
  rw [Bool.not_eq_false, isSpace, decide_eq_true_eq] at hspace
  simp only [List.mem_cons, List.not_mem_nil, or_false] at hspace
  rcases hspace with rfl | rfl | rfl | rfl | rfl | rfl <;> cases h

/-- What a number is read from. -/
theorem mem_of_scanInt (h : scanInt str = some (n, [])) (hc : c ∈ str) :
    c.isDigit = true ∨ c = '-' ∨ c = '+' := by
  have hdigits : ∀ (f : Nat → Int) (digits : List Char),
      (scanNat digits).map (fun (m, rest) => (f m, rest)) = some (n, []) →
        ∀ d ∈ digits, d.isDigit = true := by
    intro f digits hscan
    obtain ⟨⟨m, rest⟩, hm, hfm⟩ := Option.map_eq_some_iff.mp hscan
    cases hfm
    exact isDigit_of_scanNat hm
  cases str with
  | nil => cases hc
  | cons a str =>
      by_cases hminus : a = '-'
      · subst hminus
        exact (List.mem_cons.mp hc).elim (.inr ∘ .inl) (.inl ∘ hdigits (fun m => -m) str h c)
      · by_cases hplus : a = '+'
        · subst hplus
          exact (List.mem_cons.mp hc).elim (.inr ∘ .inr) (.inl ∘ hdigits (fun m => m) str h c)
        · rw [scanInt_cons hminus hplus] at h
          exact .inl (hdigits (fun m => m) (a :: str) h c hc)

/-- A decimal `int`: digits, with a sign or without. -/
structure Numeral where
  text : List Char
  value : Int
  scan : scanInt text = some (value, [])
  int : IsInt value

/-- `std::stoi` skips what is in front of a number, and does not look at what follows. -/
theorem stoi_numeral (p : Numeral) {ws : List Char} (hws : ∀ d ∈ ws, isSpace d = true)
    (hrest : ∀ d ∈ rest.head?, d.isDigit = false) :
    stoi (ws ++ p.text ++ rest) = .ok (p.value, ws.length + p.text.length) := by
  have hdrop : (ws ++ p.text ++ rest).dropWhile isSpace = p.text ++ rest := by
    rw [List.append_assoc, List.dropWhile_append_of_pos hws]
    cases htext : p.text with
    | nil =>
        have hscan := p.scan
        rw [htext] at hscan
        cases hscan
    | cons c str =>
        have hscan := p.scan
        rw [htext] at hscan
        exact List.dropWhile_cons_of_neg (by simp [isSpace_of_scanInt hscan])
  rw [stoi, hdrop, scanInt_append p.scan hrest]
  simp only [if_pos p.int, List.length_append, Nat.add_sub_cancel]

/-! ## Streams are read in order -/

namespace Stream

theorem skipws_cons {ws : List Char} (hws : ∀ d ∈ ws, isSpace d = true) (hc : isSpace c = false) :
    skipws (ofText (ws ++ c :: rest)) = ofText (c :: rest) := by
  have hdrop : (ws ++ c :: rest).dropWhile isSpace = c :: rest := by
    rw [List.dropWhile_append_of_pos hws, List.dropWhile_cons_of_neg (by simp [hc])]
  rw [skipws, ofText, hdrop]
  rfl

theorem readInt_showInt {ws : List Char} {old : Int} (hws : ∀ d ∈ ws, isSpace d = true)
    (hn : IsInt n) (hc : c.isDigit = false) :
    readInt (ofText (ws ++ showInt n ++ c :: rest)) old = (ofText (c :: rest), n) := by
  obtain ⟨d, ds, hds⟩ := List.exists_cons_of_ne_nil (showInt_ne_nil (n := n))
  have hd : isSpace d = false := by
    refine isSpace_of_mem_showInt (n := n) ?_
    rw [hds]
    exact List.mem_cons_self
  have hskip : skipws (ofText (ws ++ showInt n ++ c :: rest)) =
      ofText (showInt n ++ c :: rest) := by
    rw [List.append_assoc, hds, List.cons_append]
    exact skipws_cons hws hd
  have hscan : scanInt (ofText (showInt n ++ c :: rest)).rest = some (n, c :: rest) :=
    scanInt_showInt hc
  rw [readInt, hskip, hscan]
  show (if n < -2 ^ 31 then _ else if 2 ^ 31 ≤ n then _ else _) = _
  rw [if_neg (Int.not_lt.mpr hn.1), if_neg (Int.not_le.mpr hn.2)]
  rfl

theorem readChar_cons (hc : isSpace c = false) :
    readChar (ofText (c :: rest)) = ofText rest := by
  rw [readChar, ← List.nil_append (c :: rest),
    skipws_cons (fun d hd => absurd hd List.not_mem_nil) hc]
  rfl

theorem getline_append {field old : List Char} (hc : c ∉ field) :
    getline (ofText (field ++ c :: rest)) old c = (ofText rest, field) := by
  have hfield : ∀ d ∈ field, (decide (d ≠ c)) = true := by
    intro d hd
    refine decide_eq_true ?_
    rintro rfl
    exact hc hd
  have htake : (field ++ c :: rest).takeWhile (· ≠ c) = field := by
    rw [List.takeWhile_append_of_pos hfield, List.takeWhile_cons_of_neg (by simp),
      List.append_nil]
  have hdrop : (field ++ c :: rest).dropWhile (· ≠ c) = c :: rest := by
    rw [List.dropWhile_append_of_pos hfield, List.dropWhile_cons_of_neg (by simp)]
  rw [getline, ofText, htake, hdrop]
  rfl

end Stream

/-- The first word of a text. -/
def word (str : List Char) : List Char := (str.dropWhile isSpace).takeWhile (!isSpace ·)

theorem Stream.readWord_ofText : (readWord (ofText str) []).2 = word str := by
  cases hdrop : str.dropWhile isSpace with
  | nil => simp [readWord, skipws, ofText, good, word, hdrop]
  | cons c rest => simp [readWord, skipws, ofText, good, word, hdrop]

/-! ## Fields that survive -/

theorem word_space_cons (hc : isSpace c = true) : word (c :: str) = word str := by
  rw [word, List.dropWhile_cons_of_pos hc, word]

theorem word_eq_self : word str = str ↔ ∀ c ∈ str, isSpace c = false := by
  constructor
  · intro h c hc
    rw [← h] at hc
    simpa using List.mem_takeWhile_imp hc
  · intro h
    have hdrop : str.dropWhile isSpace = str := by
      cases str with
      | nil => rfl
      | cons c rest => exact List.dropWhile_cons_of_neg (by simp [h c List.mem_cons_self])
    rw [word, hdrop, List.takeWhile_eq_self_iff]
    intro c hc
    rw [h c hc]
    rfl

theorem mem_word (h : c ∈ word str) : c ∈ str :=
  (List.dropWhile_sublist _).subset ((List.takeWhile_sublist _).subset h)

/-- No space or tab at either end. -/
def Trimmed (str : List Char) : Prop :=
  (∀ c ∈ str.head?, blank c = false) ∧ ∀ c ∈ str.getLast?, blank c = false

theorem trim_blank_cons (hc : blank c = true) : trim (c :: str) = trim str := by
  rw [trim, List.dropWhile_cons_of_pos hc, trim]

theorem mem_trim (h : c ∈ trim str) : c ∈ str :=
  (List.dropWhile_sublist _).subset ((List.rdropWhile_prefix _ _).subset h)

theorem rdropWhile_blank_eq_self :
    str.rdropWhile blank = str ↔ ∀ c ∈ str.getLast?, blank c = false := by
  rw [List.rdropWhile_eq_self_iff]
  constructor
  · intro h c hc
    obtain ⟨hne, rfl⟩ := List.mem_getLast?_eq_getLast hc
    exact Bool.eq_false_iff.mpr (h hne)
  · intro h hne
    exact Bool.eq_false_iff.mp (h _ (List.getLast?_eq_getLast_of_ne_nil hne))

theorem trim_eq_self : trim str = str ↔ Trimmed str := by
  cases str with
  | nil => exact ⟨fun _ => ⟨fun c hc => absurd hc (Option.not_mem_none c),
      fun c hc => absurd hc (Option.not_mem_none c)⟩, fun _ => rfl⟩
  | cons c rest =>
      cases hc : blank c with
      | true =>
          refine ⟨fun h => ?_, fun h => ?_⟩
          · -- a text that starts with a blank gets shorter
            have hlen := congrArg List.length h
            rw [trim_blank_cons hc] at hlen
            have hle : (trim rest).length ≤ rest.length :=
              ((List.rdropWhile_prefix _ _).length_le).trans (List.dropWhile_sublist _).length_le
            rw [hlen, List.length_cons] at hle
            exact absurd hle (Nat.not_succ_le_self _)
          · have hhead := h.1 c rfl
            rw [hc] at hhead
            cases hhead
      | false =>
          rw [trim, List.dropWhile_cons_of_neg (by simp [hc]), rdropWhile_blank_eq_self, Trimmed]
          refine (and_iff_right fun d hd => ?_).symm
          cases hd
          exact hc

/-! ## Lines and cuts -/

theorem lines_append (h : '\n' ∉ str) : lines (str ++ '\n' :: rest) = str :: lines rest :=
  Lines.linesFrom_append h

/-- A last line without a newline. -/
theorem lines_of_not_mem (h : '\n' ∉ str) : lines str = if str = [] then [] else [str] :=
  Lines.linesFrom_of_not_mem h

theorem cut_eq_some {a b : List Char} (h : cut c str = some (a, b)) :
    c ∉ a ∧ (∀ d ∈ a, d ∈ str) ∧ ∀ d ∈ b, d ∈ str := by
  rw [cut] at h
  split at h
  case h_1 => cases h
  case h_2 d rest hdrop =>
    cases h
    refine ⟨fun hmem => ?_, fun d hd => (List.takeWhile_sublist _).subset hd, fun d hd => ?_⟩
    · simpa using List.mem_takeWhile_imp hmem
    · refine (List.dropWhile_sublist (· ≠ c)).subset ?_
      rw [hdrop]
      exact List.mem_cons_of_mem _ hd

theorem eq_of_cut {a b : List Char} (h : cut c str = some (a, b)) : str = a ++ c :: b := by
  rw [cut] at h
  split at h
  case h_1 => cases h
  case h_2 d rest hdrop =>
    cases h
    have hd : d = c := by
      have hhead := List.head?_dropWhile_not (· ≠ c) str
      rw [hdrop] at hhead
      simpa using hhead
    rw [← hd, ← hdrop, hd, List.takeWhile_append_dropWhile]

/-- The first `c` ends the first part. -/
theorem cut_append {a b : List Char} (h : c ∉ a) : cut c (a ++ c :: b) = some (a, b) := by
  have ha : ∀ d ∈ a, decide (d ≠ c) = true := by
    intro d hd
    refine decide_eq_true ?_
    rintro rfl
    exact h hd
  rw [cut, List.takeWhile_append_of_pos ha, List.dropWhile_append_of_pos ha,
    List.takeWhile_cons_of_neg (by simp), List.dropWhile_cons_of_neg (by simp), List.append_nil]

theorem isInt_of_stoi {k : Nat} (h : stoi str = .ok (n, k)) : IsInt n := by
  rw [stoi] at h
  split at h
  case h_1 => cases h
  case h_2 v rest hscan =>
    split at h
    case isTrue hv =>
      cases h
      exact hv
    case isFalse => cases h

end CKernel.Text
