import TpcBank.Library.Pattern
import TpcBank.CsvRoundTrip

/-! The parser of commands of `commands_parser.cc`, and the grammar that it checks a line against. -/
namespace TpcBank
open Decimal Pattern

inductive Command
  | processNextSet
  | printBalance
  | printDatastore
  | printPerformance
  | exit
  deriving DecidableEq, Repr

structure AppCommand where
  command : Command
  clientId : ℤ
  deriving DecidableEq, Repr

namespace CommandsParser

def processNextSetPattern : RegularExpression Char := literal "processNextSet".toList

/-- `printBalance [1-9][0-9]*`. -/
def printBalancePattern : RegularExpression Char :=
  literal "printBalance ".toList * (oneOf "123456789".toList * (oneOf "0123456789".toList).star)

def printDatastorePattern : RegularExpression Char := literal "printDatastore".toList

def printPerformancePattern : RegularExpression Char := literal "printPerformance".toList

def exitPattern : RegularExpression Char := literal "exit".toList

/-- `regex_match` compares the whole command with each pattern. -/
def isValidCommand (command : Text) : Bool :=
  processNextSetPattern.rmatch command ||
    printBalancePattern.rmatch command ||
    printDatastorePattern.rmatch command ||
    printPerformancePattern.rmatch command ||
    exitPattern.rmatch command

/-- The words that `stream >> token` delivers, with the part of a word read so far. -/
def readTokens (token : Text) : Text → List Text
  | [] => if token = [] then [] else [token]
  | ch :: rest =>
      if isSpace ch then (if token = [] then readTokens [] rest else token :: readTokens [] rest)
      else readTokens (token ++ [ch]) rest

def tokenizeCommand (command : Text) : List Text := readTokens [] command

def parseCommand (command : Text) : Except CsvError AppCommand :=
  if !isValidCommand command then .error .invalidArgument
  else do
    let commandTokens := tokenizeCommand command
    let c : AppCommand := ⟨.processNextSet, -1⟩
    let name ← column commandTokens 0
    if name = "processNextSet".toList then return { c with command := .processNextSet }
    else if name = "printBalance".toList then
      let number ← column commandTokens 1
      let clientId ← stoi number
      return ⟨.printBalance, clientId⟩
    else if name = "printDatastore".toList then return { c with command := .printDatastore }
    else if name = "printPerformance".toList then return { c with command := .printPerformance }
    else return { c with command := .exit }

/-! ### The grammar -/

/-- The lines of the grammar, each with the command that it spells. The numeral of
`printBalance` has any length and no leading zero. -/
inductive Spells : Text → AppCommand → Prop
  | processNextSet : Spells "processNextSet".toList ⟨.processNextSet, -1⟩
  | printBalance (d : Char) (ds : Text) (hd : d ≠ '0') (hdigit : ∀ ch ∈ d :: ds, ch.isDigit = true) :
      Spells ("printBalance ".toList ++ d :: ds) ⟨.printBalance, Nat.ofDigitChars 10 (d :: ds) 0⟩
  | printDatastore : Spells "printDatastore".toList ⟨.printDatastore, -1⟩
  | printPerformance : Spells "printPerformance".toList ⟨.printPerformance, -1⟩
  | exit : Spells "exit".toList ⟨.exit, -1⟩

/-- A line is parsed to the command that it spells when the number fits an `int`, and is rejected
with `std::invalid_argument` in all other cases. -/
def ParseContract (command : Text) : Prop :=
  (∃ c, Spells command c ∧ IsInt c.clientId ∧ parseCommand command = .ok c) ∨
    (¬ ∃ c, Spells command c ∧ IsInt c.clientId) ∧
      parseCommand command = .error .invalidArgument

theorem mem_digits_iff {ch : Char} : ch ∈ "0123456789".toList ↔ ch.isDigit = true := by
  have hdigits : "0123456789".toList = ['0', '1', '2', '3', '4', '5', '6', '7', '8', '9'] := rfl
  rw [hdigits]
  constructor
  · intro h
    simp only [List.mem_cons, List.not_mem_nil, or_false] at h
    rcases h with rfl | rfl | rfl | rfl | rfl | rfl | rfl | rfl | rfl | rfl <;> rfl
  · intro h
    have hrange : 48 ≤ ch.toNat ∧ ch.toNat ≤ 57 := by
      simpa [Char.isDigit, UInt32.le_iff_toNat_le] using h
    obtain ⟨hlow, hhigh⟩ := hrange
    have heq := Char.ofNat_toNat ch
    interval_cases ch.toNat <;> rw [← heq] <;> decide

theorem mem_positiveDigits_iff {ch : Char} :
    ch ∈ "123456789".toList ↔ ch ≠ '0' ∧ ch.isDigit = true := by
  have hpositive : "123456789".toList = ['1', '2', '3', '4', '5', '6', '7', '8', '9'] := rfl
  have hdigits : "0123456789".toList = '0' :: "123456789".toList := rfl
  rw [← mem_digits_iff, hdigits, List.mem_cons, hpositive]
  simp only [List.mem_cons, List.not_mem_nil, or_false]
  constructor
  · rintro (rfl | rfl | rfl | rfl | rfl | rfl | rfl | rfl | rfl) <;> decide
  · rintro ⟨hne, rfl | h⟩
    · exact absurd rfl hne
    · exact h

theorem rmatch_printBalance {command : Text} : printBalancePattern.rmatch command = true ↔
    ∃ d ds, d ≠ '0' ∧ (∀ ch ∈ d :: ds, ch.isDigit = true) ∧
      command = "printBalance ".toList ++ d :: ds := by
  rw [printBalancePattern, RegularExpression.mul_rmatch_iff]
  constructor
  · rintro ⟨name, number, rfl, hname, hnumber⟩
    obtain ⟨first, ds, rfl, hfirst, hds⟩ := (RegularExpression.mul_rmatch_iff _ _ _).mp hnumber
    obtain ⟨d, hd, rfl⟩ := rmatch_oneOf.mp hfirst
    have hd := mem_positiveDigits_iff.mp hd
    have hds := rmatch_star_oneOf.mp hds
    refine ⟨d, ds, hd.1, ?_, by rw [rmatch_literal.mp hname]; rfl⟩
    intro ch hch
    rcases List.mem_cons.mp hch with rfl | hch
    · exact hd.2
    · exact mem_digits_iff.mp (hds ch hch)
  · rintro ⟨d, ds, hd, hdigit, rfl⟩
    refine ⟨_, d :: ds, rfl, rmatch_literal.mpr rfl, ?_⟩
    refine (RegularExpression.mul_rmatch_iff _ _ _).mpr ⟨[d], ds, rfl, ?_, ?_⟩
    · exact rmatch_oneOf.mpr ⟨d, mem_positiveDigits_iff.mpr ⟨hd, hdigit d List.mem_cons_self⟩, rfl⟩
    · exact rmatch_star_oneOf.mpr fun ch hch =>
        mem_digits_iff.mpr (hdigit ch (List.mem_cons_of_mem _ hch))

/-- The patterns match the lines of the grammar, with numerals of any length. -/
theorem isValidCommand_iff {command : Text} :
    isValidCommand command = true ↔ ∃ c, Spells command c := by
  simp only [isValidCommand, Bool.or_eq_true, rmatch_printBalance, processNextSetPattern,
    printDatastorePattern, printPerformancePattern, exitPattern, rmatch_literal]
  constructor
  · rintro ((((rfl | ⟨d, ds, hd, hdigit, rfl⟩) | rfl) | rfl) | rfl)
    · exact ⟨_, .processNextSet⟩
    · exact ⟨_, .printBalance d ds hd hdigit⟩
    · exact ⟨_, .printDatastore⟩
    · exact ⟨_, .printPerformance⟩
    · exact ⟨_, .exit⟩
  · rintro ⟨c, h⟩
    cases h with
    | processNextSet => exact .inl (.inl (.inl (.inl rfl)))
    | printBalance d ds hd hdigit => exact .inl (.inl (.inl (.inr ⟨d, ds, hd, hdigit, rfl⟩)))
    | printDatastore => exact .inl (.inl (.inr rfl))
    | printPerformance => exact .inl (.inr rfl)
    | exit => exact .inr rfl

theorem readTokens_word (token : Text) {word : Text} (rest : Text)
    (hword : ∀ ch ∈ word, isSpace ch = false) :
    readTokens token (word ++ rest) = readTokens (token ++ word) rest := by
  induction word generalizing token with
  | nil => rw [List.append_nil, List.nil_append]
  | cons ch word ih =>
    have hch := hword ch List.mem_cons_self
    rw [List.cons_append, readTokens, hch, if_neg Bool.false_ne_true,
      ih _ fun ch hch => hword ch (List.mem_cons_of_mem _ hch), List.append_assoc,
      List.singleton_append]

theorem tokenizeCommand_printBalance {number : Text} (hne : number ≠ [])
    (hnumber : ∀ ch ∈ number, isSpace ch = false) :
    tokenizeCommand ("printBalance ".toList ++ number) = ["printBalance".toList, number] := by
  have hname : ∀ ch ∈ "printBalance".toList, isSpace ch = false := by
    have hletters : "printBalance".toList =
        ['p', 'r', 'i', 'n', 't', 'B', 'a', 'l', 'a', 'n', 'c', 'e'] := rfl
    rw [hletters]
    simp [isSpace]
  have hlast : readTokens [] number = [number] := by
    have h := readTokens_word [] [] hnumber
    rwa [List.append_nil, List.nil_append, readTokens, if_neg hne] at h
  calc tokenizeCommand ("printBalance ".toList ++ number)
      = readTokens [] ("printBalance".toList ++ ' ' :: number) := rfl
    _ = readTokens "printBalance".toList (' ' :: number) := by
        rw [readTokens_word _ _ hname, List.nil_append]
    _ = "printBalance".toList :: readTokens [] number := rfl
    _ = ["printBalance".toList, number] := by rw [hlast]

/-- `std::stoi` of a numeral of any length. -/
theorem stoi_digits {d : Char} {ds : Text} (hdigit : ∀ ch ∈ d :: ds, ch.isDigit = true) :
    stoi (d :: ds) = if IsInt (Nat.ofDigitChars 10 (d :: ds) 0) then
      .ok (Nat.ofDigitChars 10 (d :: ds) 0 : ℤ) else .error .outOfRange := by
  obtain ⟨hminus, hplus, -⟩ := isDigit_not_sign (hdigit d List.mem_cons_self)
  have hread : readDigits (d :: ds) = some (Nat.ofDigitChars 10 (d :: ds) 0, []) := by
    have htake : (d :: ds).takeWhile Char.isDigit = d :: ds := List.takeWhile_eq_self_iff.mpr hdigit
    have hdrop : (d :: ds).dropWhile Char.isDigit = [] := List.dropWhile_eq_nil_iff.mpr hdigit
    rw [readDigits, htake, hdrop, if_neg (List.cons_ne_nil _ _)]
  have hspace : (d :: ds).dropWhile isSpace = d :: ds :=
    List.dropWhile_cons_of_neg (by simp [isDigit_not_space (hdigit d List.mem_cons_self)])
  unfold stoi
  rw [hspace]
  split <;> simp_all

theorem parseCommand_of_valid {command : Text} (hvalid : isValidCommand command = true) :
    parseCommand command = do
      let name ← column (tokenizeCommand command) 0
      if name = "processNextSet".toList then return ⟨.processNextSet, -1⟩
      else if name = "printBalance".toList then
        let number ← column (tokenizeCommand command) 1
        let clientId ← stoi number
        return ⟨.printBalance, clientId⟩
      else if name = "printDatastore".toList then return ⟨.printDatastore, -1⟩
      else if name = "printPerformance".toList then return ⟨.printPerformance, -1⟩
      else return ⟨.exit, -1⟩ := by
  unfold parseCommand
  rw [hvalid, Bool.not_true, if_neg Bool.false_ne_true]

/-- A line of the grammar is parsed to its command, unless its number does not fit an `int`: then
`std::out_of_range` is thrown. -/
theorem parseCommand_of_spells {command : Text} {c : AppCommand} (h : Spells command c) :
    parseCommand command = if IsInt c.clientId then .ok c else .error .outOfRange := by
  rw [parseCommand_of_valid (isValidCommand_iff.mpr ⟨c, h⟩)]
  cases h with
  | printBalance d ds hd hdigit =>
    have hspace : ∀ ch ∈ d :: ds, isSpace ch = false := fun ch hch => isDigit_not_space (hdigit ch hch)
    rw [tokenizeCommand_printBalance (List.cons_ne_nil _ _) hspace]
    show (do
      let clientId ← stoi (d :: ds)
      return (⟨.printBalance, clientId⟩ : AppCommand)) = _
    rw [stoi_digits hdigit]
    split_ifs <;> rfl
  | _ => decide

/-- The parser keeps its contract on exactly the lines that are not `printBalance` with a number
beyond the range of `int`. -/
theorem parseContract_iff (command : Text) : ParseContract command ↔
    ∀ c, Spells command c → IsInt c.clientId := by
  constructor
  · intro hcontract c hspells
    by_contra hint
    have hparse := parseCommand_of_spells hspells
    rw [if_neg hint] at hparse
    rcases hcontract with ⟨c', -, -, hparse'⟩ | ⟨-, hparse'⟩
    · rw [hparse] at hparse'
      cases hparse'
    · rw [hparse] at hparse'
      cases hparse'
  · intro hall
    by_cases hspells : ∃ c, Spells command c
    · obtain ⟨c, hspells⟩ := hspells
      have hint := hall c hspells
      refine .inl ⟨c, hspells, hint, ?_⟩
      rw [parseCommand_of_spells hspells, if_pos hint]
    · have hnone : ¬ ∃ c, Spells command c ∧ IsInt c.clientId := by
        rintro ⟨c, h, hint⟩
        exact hspells ⟨c, h⟩
      refine .inr ⟨hnone, ?_⟩
      have hinvalid : isValidCommand command = false := by
        rw [← Bool.not_eq_true, isValidCommand_iff]
        exact hspells
      unfold parseCommand
      rw [hinvalid, Bool.not_false, if_pos rfl]

theorem not_parseContract_intMax : ¬ ParseContract "printBalance 2147483648".toList := by
  have hspells : Spells "printBalance 2147483648".toList ⟨.printBalance, 2147483648⟩ := by
    refine Spells.printBalance '2' "147483648".toList (by decide) ?_
    have hdigits : '2' :: "147483648".toList = ['2', '1', '4', '7', '4', '8', '3', '6', '4', '8'] := rfl
    rw [hdigits]
    simp
  intro hcontract
  exact absurd ((parseContract_iff _).mp hcontract _ hspells) (by decide)

end CommandsParser
end TpcBank
