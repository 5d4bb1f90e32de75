import TpcBank.Utils
import TpcBank.Library.Delimited

/-! The reader of transaction sets of `csv_reader.cc`, and the format that it reads. -/
namespace TpcBank
open Decimal Delimited

/-- What a value becomes in a 32-bit `int`. -/
def toInt (z : ℤ) : ℤ := z.bmod (2 ^ 32)

/-- The values of an `int`. -/
def IsInt (z : ℤ) : Prop := -2 ^ 31 ≤ z ∧ z < 2 ^ 31

instance (z : ℤ) : Decidable (IsInt z) := inferInstanceAs (Decidable (_ ∧ _))

/-- The exceptions of `std::stoi` and of `std::vector::at`. -/
inductive CsvError
  | invalidArgument
  | outOfRange
  deriving DecidableEq, Repr

/-- The white space of `isspace`. -/
def isSpace (ch : Char) : Bool :=
  ch = ' ' || ch = '\t' || ch = '\n' || ch = '\r' || ch = '\x0b' || ch = '\x0c'

/-- `std::stoi`: white space, an optional sign and digits; what follows them is ignored. -/
def stoi (text : Text) : Except CsvError ℤ :=
  let value : Option ℤ :=
    match text.dropWhile isSpace with
    | '-' :: rest => (readDigits rest).map fun r => -(r.1 : ℤ)
    | '+' :: rest => (readDigits rest).map fun r => (r.1 : ℤ)
    | rest => (readDigits rest).map fun r => (r.1 : ℤ)
  match value with
  | none => .error .invalidArgument
  | some z => if IsInt z then .ok z else .error .outOfRange

/-- `std::vector::at`. -/
def column (columns : List Text) (i : ℕ) : Except CsvError Text :=
  match columns[i]? with
  | none => .error .outOfRange
  | some text => .ok text

structure CSVLine where
  setNo : ℤ
  transaction : Transaction
  servers : List Text
  leaders : List Text
  deriving DecidableEq

structure TransactionSet where
  setNo : ℤ := 0
  transactions : List Transaction := []
  servers : List Text := []
  leaders : List Text := []
  disconnected : List Text := []
  deriving DecidableEq

/-- The keys of `constants::server_ids`, in the order of the map. -/
def Constants.serverNames (c : Constants) : List Text :=
  c.serverIds.map Prod.fst

/-- The reader: the lines that `getline` has not delivered yet, and the two sets between which
`readNextSet` looks ahead. -/
structure CSVReader where
  file : List Text
  currentSetNo : ℤ := 0
  currentTransactionSet : TransactionSet := {}
  nextTransactionSet : TransactionSet := {}
  deriving DecidableEq

namespace CSVReader

def stripLineEndings (line : Text) : Text :=
  line.filter fun ch => !(ch = '\r' || ch = '\n' || ch = ' ')

def parseTransaction (text : Text) : Except CsvError Transaction := do
  let fields := splitSkip ',' (fun ch => ch = '(' || ch = ')' || ch = ' ') [] text
  let sender ← stoi (← column fields 0)
  let receiver ← stoi (← column fields 1)
  let amount ← stoi (← column fields 2)
  return ⟨sender, receiver, amount⟩

def parseServers (text : Text) : List Text :=
  splitSkip ',' (fun ch => ch = '[' || ch = ']' || ch = ' ') [] text

def parseCSVLine (line : Text) : Except CsvError CSVLine := do
  let columns := splitQuoted ',' '"' false [] line
  let number ← column columns 0
  let setNo ← if number = [] then pure (-1) else stoi number
  let t ← parseTransaction (← column columns 1)
  let servers ← column columns 2
  let leaders ← column columns 3
  return {
    setNo, transaction := t
    servers := if servers = [] then [] else parseServers servers
    leaders := if leaders = [] then [] else parseServers leaders }

/-- The reader of a file with the given text. -/
def ofText (text : Text) : CSVReader := { file := lines '\n' [] text }

/-- The first row of a set: its transaction goes to the end, its servers and leaders replace. -/
def pushFirst (set : TransactionSet) (l : CSVLine) : TransactionSet :=
  { set with
    transactions := set.transactions ++ [l.transaction], servers := l.servers, leaders := l.leaders }

/-- Any other row of a set. -/
def push (set : TransactionSet) (l : CSVLine) : TransactionSet :=
  { set with transactions := set.transactions ++ [l.transaction] }

/-- The `getline` loop of `readNextSet`, with the exception that ends it. -/
def readRows (setNo : ℤ) :
    List Text → TransactionSet → TransactionSet → Option CsvError × CSVReader
  | [], current, next => (none, ⟨[], setNo, current, next⟩)
  | line :: file, current, next =>
      match parseCSVLine (stripLineEndings line) with
      | .error e => (some e, ⟨file, setNo, current, next⟩)
      | .ok l =>
          if l.setNo = setNo then readRows setNo file (pushFirst current l) next
          else if l.setNo = toInt (setNo + 1) then (none, ⟨file, setNo, current, pushFirst next l⟩)
          else readRows setNo file (push current l) next

/-- What a call of `readNextSet` returns or throws, and what it leaves behind. -/
structure Read where
  returned : Except CsvError ℤ
  reader : CSVReader
  set : TransactionSet

/-- The current set of a call: what was read ahead. -/
def swapCurrent (r : CSVReader) : TransactionSet :=
  { r.currentTransactionSet with
    servers := r.nextTransactionSet.servers
    leaders := r.nextTransactionSet.leaders
    transactions := r.nextTransactionSet.transactions }

/-- The next set of a call: cleared, but for the leaders that were swapped out. -/
def swapNext (r : CSVReader) : TransactionSet :=
  { r.nextTransactionSet with
    servers := [], leaders := r.currentTransactionSet.leaders, transactions := [] }

def readNextSet (c : Constants) (r : CSVReader) (t : TransactionSet) : Read :=
  match readRows (toInt (r.currentSetNo + 1)) r.file r.swapCurrent r.swapNext with
  | (some e, reader) => ⟨.error e, reader, t⟩
  | (none, reader) =>
      let read := reader.currentTransactionSet
      if read.transactions = [] then ⟨.ok 0, reader, t⟩
      else
        { returned := .ok (toInt read.transactions.length)
          reader
          set :=
            { setNo := reader.currentSetNo
              transactions := read.transactions
              servers := read.servers
              leaders := read.leaders
              disconnected := c.serverNames.filter fun name => name ∉ read.servers } }

/-- Call number `k`, counted from 0, of `readNextSet` on one reader, in the way `mainloop` does:
with the same set each time, and going on after an exception. -/
def nthCall (c : Constants) (text : Text) (t : TransactionSet) : ℕ → Read
  | 0 => readNextSet c (ofText text) t
  | k + 1 => readNextSet c (nthCall c text t k).reader (nthCall c text t k).set

end CSVReader

/-! ### The format -/

/-- The characters of a server name. -/
def IsNameChar (ch : Char) : Prop :=
  ch ≠ ',' ∧ ch ≠ '[' ∧ ch ≠ ']' ∧ ch ≠ '"' ∧ ch ≠ ' ' ∧ ch ≠ '\r' ∧ ch ≠ '\n'

instance (ch : Char) : Decidable (IsNameChar ch) := inferInstanceAs (Decidable (_ ∧ _))

/-- A list of server names that a column can hold. -/
structure Names where
  names : List Text
  nonempty : names ≠ []
  clean : ∀ name ∈ names, name ≠ [] ∧ ∀ ch ∈ name, IsNameChar ch

/-- A transaction set as it is written to a file. -/
structure WrittenSet where
  transactions : List Transaction
  servers : Names
  leaders : Names
  nonempty : transactions ≠ []
  isInt : ∀ t ∈ transactions, IsInt t.sender ∧ IsInt t.receiver ∧ IsInt t.amount

def writeTransaction (t : Transaction) : Text :=
  ['"', '('] ++ [',', ' '].intercalate [decimal t.sender, decimal t.receiver, decimal t.amount]
    ++ [')', '"']

def writeNames (n : Names) : Text :=
  ['"', '['] ++ [',', ' '].intercalate n.names ++ [']', '"']

namespace WrittenSet

/-- The first row of set number `k`. -/
def firstRow (set : WrittenSet) (k : ℤ) (t : Transaction) : Text :=
  [','].intercalate
    [decimal k, writeTransaction t, writeNames set.servers, writeNames set.leaders]

def laterRow (t : Transaction) : Text := [','].intercalate [[], writeTransaction t, [], []]

def rows (set : WrittenSet) (k : ℤ) : List Text :=
  match set.transactions with
  | [] => []
  | t :: ts => set.firstRow k t :: ts.map laterRow

/-- The rows of the sets with the numbers from `k` on. -/
def allRows (k : ℤ) : List WrittenSet → List Text
  | [] => []
  | set :: sets => set.rows k ++ allRows (k + 1) sets

/-- The file of some sets, with LF or CRLF line ends, and with or without the last of them. -/
def write (crlf final : Bool) (sets : List WrittenSet) : Text :=
  joinRows ((if crlf then ['\r'] else []) ++ ['\n']) final (allRows 1 sets)

end WrittenSet
end TpcBank
