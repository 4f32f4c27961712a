import Mathlib.Data.List.Basic
import Mathlib.Data.Nat.Notation
import Mathlib.Logic.Function.Basic

/-!
# The kernel command line

`Kernel/Boot/CommandLine.cpp`. `ParseArguments` goes through the line with a position: it skips
blanks, takes what follows a `-` up to the next blank as an option, and steps over any other
character. So a word of the line is an option from its first `-` on, wherever that is
(`options`), and a later option replaces an earlier one with the same name.

What is a blank is decided by Prism and is a parameter; that `-` is not one is all that is used.
-/

namespace Cryptix.CommandLine

/-- `s_OptionMap`. -/
abbrev OptionMap := List UInt8 → Option (List UInt8)

/-- `result[String(arg)] = ...`: an argument with a value, or a flag. -/
def insertArgument (result : OptionMap) (arg : List UInt8) : OptionMap :=
  match arg.findIdx? (· == 0x3d) with
  | some delimiterPos =>
    Function.update result (arg.take delimiterPos) (some (arg.drop (delimiterPos + 1)))
  | none => Function.update result arg (some [])

variable (isSpace : UInt8 → Bool)

/-- The loop of `ParseArguments` from a position on. The first argument bounds its turns by the
characters that are left. -/
def parseLoop : ℕ → List UInt8 → OptionMap → OptionMap
  | 0, _, result => result
  | fuel + 1, rest, result =>
    match rest.dropWhile isSpace with
    | [] => result
    | c :: rest =>
      if c = 0x2d then
        parseLoop fuel (rest.dropWhile fun c => !isSpace c)
          (insertArgument result (rest.takeWhile fun c => !isSpace c))
      else parseLoop fuel rest result

/-- The command line without the quotes around it. -/
def unquote (args : List UInt8) : List UInt8 :=
  let args := if args.head? = some 0x22 then args.tail else args
  if args.getLast? = some 0x22 then args.dropLast else args

/-- `ParseArguments`. -/
def parseArguments (args : List UInt8) (result : OptionMap) : OptionMap :=
  parseLoop isSpace (unquote args).length (unquote args) result

/-- `Contains`. -/
def contains (optionMap : OptionMap) (key : List UInt8) : Bool := (optionMap key).isSome

/-- `GetBoolean`: the value is `true` or `1`. -/
def getBoolean (optionMap : OptionMap) (key : List UInt8) : Option Bool :=
  (optionMap key).map fun value => value == [0x74, 0x72, 0x75, 0x65] || value == [0x31]

/-- `GetString`. -/
def getString (optionMap : OptionMap) (key : List UInt8) : List UInt8 := (optionMap key).getD []

/-! ## The options of a line -/

/-- An argument as a name and a value. -/
def splitArgument (arg : List UInt8) : List UInt8 × List UInt8 :=
  (arg.takeWhile (· != 0x3d), (arg.dropWhile (· != 0x3d)).tail)

/-- The option in a word: what follows its first `-`. -/
def optionOf (word : List UInt8) : Option (List UInt8 × List UInt8) :=
  match word.dropWhile (· != 0x2d) with
  | [] => none
  | _ :: arg => some (splitArgument arg)

/-- The options of a line, the first one first. -/
def options (line : List UInt8) : List (List UInt8 × List UInt8) :=
  (line.splitOnP isSpace).filterMap optionOf

theorem insertArgument_eq (result : OptionMap) (arg : List UInt8) :
    insertArgument result arg =
      Function.update result (splitArgument arg).1 (some (splitArgument arg).2) := by
  have hsplit : ∀ arg : List UInt8, match arg.findIdx? (· == 0x3d) with
      | some k => arg.take k = (splitArgument arg).1 ∧ arg.drop (k + 1) = (splitArgument arg).2
      | none => arg = (splitArgument arg).1 ∧ [] = (splitArgument arg).2 := by
    intro arg
    induction arg with
    | nil => exact ⟨rfl, rfl⟩
    | cons c arg ih =>
      rw [List.findIdx?_cons]
      by_cases hc : c = 0x3d
      · simp [splitArgument, hc]
      · simp only [splitArgument] at ih ⊢
        rw [if_neg (by simpa using hc)]
        cases hfind : arg.findIdx? (· == 0x3d) with
        | none =>
          rw [hfind] at ih
          simpa [hc] using ih
        | some k =>
          rw [hfind] at ih
          simpa [hc] using ih
  have h := hsplit arg
  rw [insertArgument]
  split at h
  · rw [h.1, h.2]
  · rw [← h.1, ← h.2]

section Words

variable {isSpace} {c : UInt8} {line : List UInt8}

theorem options_cons_space (hc : isSpace c = true) :
    options isSpace (c :: line) = options isSpace line := by
  rw [options, List.splitOnP_cons_eq_if_modifyHead, if_pos hc]
  rfl

theorem options_dropWhile (line : List UInt8) :
    options isSpace (line.dropWhile isSpace) = options isSpace line := by
  induction line with
  | nil => rfl
  | cons c line ih =>
    rw [List.dropWhile_cons]
    split
    · rename_i hc
      rw [ih, options_cons_space hc]
    · rfl

/-- A character in front of an option is part of no option. -/
theorem options_cons_other (hspace : isSpace c = false) (hc : c ≠ 0x2d) :
    options isSpace (c :: line) = options isSpace line := by
  have hword : ∀ word, optionOf (c :: word) = optionOf word := by
    intro word
    rw [optionOf, List.dropWhile_cons, if_pos (by simpa using hc), optionOf]
  rw [options, options, List.splitOnP_cons_eq_if_modifyHead, if_neg (by simp [hspace])]
  cases hsplit : line.splitOnP isSpace with
  | nil => exact absurd hsplit (List.splitOnP_ne_nil _ _)
  | cons word words => rw [List.modifyHead_cons, List.filterMap_cons, List.filterMap_cons, hword]

/-- The first word of a line. -/
theorem splitOnP_eq (isSpace : UInt8 → Bool) (line : List UInt8) : ∃ words,
    line.splitOnP isSpace = line.takeWhile (fun c => !isSpace c) :: words ∧
      (line.dropWhile fun c => !isSpace c).splitOnP isSpace = [] :: words := by
  induction line with
  | nil => exact ⟨[], rfl, rfl⟩
  | cons c line ih =>
    rw [List.splitOnP_cons_eq_if_modifyHead, List.takeWhile_cons, List.dropWhile_cons]
    cases hc : isSpace c with
    | true =>
      refine ⟨line.splitOnP isSpace, rfl, ?_⟩
      simp only [Bool.not_true, Bool.false_eq_true, if_false]
      rw [List.splitOnP_cons_eq_if_modifyHead, if_pos hc]
    | false =>
      obtain ⟨words, hwords, hrest⟩ := ih
      refine ⟨words, ?_, hrest⟩
      rw [hwords]
      rfl

/-- A `-` begins an option. -/
theorem options_cons_dash (hdash : isSpace 0x2d = false) :
    options isSpace (0x2d :: line) =
      splitArgument (line.takeWhile fun c => !isSpace c) ::
        options isSpace (line.dropWhile fun c => !isSpace c) := by
  obtain ⟨words, hwords, hrest⟩ := splitOnP_eq isSpace line
  rw [options, List.splitOnP_cons_eq_if_modifyHead, if_neg (by simp [hdash]), hwords, options,
    hrest]
  rfl

end Words

/-! ## What the parser does -/

section Parsing

variable {isSpace}

/-- An option in the map. -/
def store (result : OptionMap) (option : List UInt8 × List UInt8) : OptionMap :=
  Function.update result option.1 (some option.2)

/-- The loop stores the options of what is left of the line. -/
theorem parseLoop_eq (hdash : isSpace 0x2d = false) {fuel : ℕ} {rest : List UInt8}
    (hfuel : rest.length ≤ fuel) (result : OptionMap) :
    parseLoop isSpace fuel rest result = (options isSpace rest).foldl store result := by
  induction fuel generalizing rest result with
  | zero =>
    obtain rfl := List.length_eq_zero_iff.mp (Nat.le_zero.mp hfuel)
    rfl
  | succ fuel ih =>
    rw [parseLoop, ← options_dropWhile rest]
    have hlength := (List.dropWhile_sublist (p := isSpace) (l := rest)).length_le
    cases hskip : rest.dropWhile isSpace with
    | nil => rfl
    | cons c tail =>
      have hspace : isSpace c = false := by
        have hne : rest.dropWhile isSpace ≠ [] := by rw [hskip]; exact List.cons_ne_nil _ _
        have hhead := List.head_dropWhile_not isSpace hne
        simpa [hskip] using hhead
      rw [hskip, List.length_cons] at hlength
      dsimp only
      by_cases hc : c = 0x2d
      · subst hc
        have hword := (List.dropWhile_sublist (p := fun c => !isSpace c) (l := tail)).length_le
        rw [if_pos rfl, ih (by omega), options_cons_dash hdash, List.foldl_cons, insertArgument_eq]
        rfl
      · rw [if_neg hc, ih (by omega), options_cons_other hspace hc]

/-- What is stored under a name is the value of the last option with that name. -/
theorem foldl_store (l : List (List UInt8 × List UInt8)) (result : OptionMap) (key : List UInt8) :
    l.foldl store result key =
      ((l.reverse.find? fun option => option.1 = key).map Prod.snd).or (result key) := by
  induction l generalizing result with
  | nil => rfl
  | cons option l ih =>
    rw [List.foldl_cons, ih, List.reverse_cons, List.find?_append, store]
    cases hfind : l.reverse.find? fun option => option.1 = key with
    | some found => rfl
    | none =>
      by_cases hkey : option.1 = key
      · subst hkey
        simp
      · simp [hkey, Function.update_of_ne (Ne.symm hkey)]

end Parsing

/-- For every command line, a name is mapped to the value of the last option with that name, an
option being what follows the first `-` of a word. -/
theorem parseArguments_eq (hdash : isSpace 0x2d = false) (args key : List UInt8) :
    parseArguments isSpace args (fun _ => none) key =
      ((options isSpace (unquote args)).reverse.find? fun option => option.1 = key).map
        Prod.snd := by
  rw [parseArguments, parseLoop_eq hdash (Nat.le_refl _), foldl_store, Option.or_none]

/-- A blank or a tab. -/
def blank (c : UInt8) : Bool := c == 0x20 || c == 0x09

/-- The line is `a-b -x=1 -x=2 -q`, in quotes. -/
theorem parseArguments_eq_line :
    let line : List UInt8 := [0x22, 0x61, 0x2d, 0x62, 0x20, 0x2d, 0x78, 0x3d, 0x31, 0x20, 0x2d,
      0x78, 0x3d, 0x32, 0x20, 0x2d, 0x71, 0x22]
    parseArguments blank line (fun _ => none) [0x78] = some [0x32] ∧
      parseArguments blank line (fun _ => none) [0x62] = some [] ∧
      parseArguments blank line (fun _ => none) [0x61] = none :=
  ⟨parseArguments_eq blank rfl _ _, parseArguments_eq blank rfl _ _,
    parseArguments_eq blank rfl _ _⟩

end Cryptix.CommandLine
