/-
  Subject: The primaries of `test`, `src/shell.c`: what they are, and how `test_primary` finds them.

  The file system and the process are parameters. What a primary means is stated by name, apart from
  the two tables of operators in which the code looks its text up.
-/
import Arksh.Exec.SortStage

namespace Arksh

open CText

/-! ## 1. What a test looks at -/

inductive FileType where
  | regular | directory | symlink | block | character | fifo | socket
  deriving DecidableEq

structure TestStat where
  type : FileType
  size : Int
  setuid : Bool
  setgid : Bool
  sticky : Bool
  uid : Nat
  gid : Nat
  mtime : Int
  atime : Int
  dev : Nat
  ino : Nat

/-- `R_OK`, `W_OK` and `X_OK` -/
inductive AccessMode where
  | read | write | execute

/-- The file system and the process. -/
structure TestHost where
  stat : Text → Option TestStat
  lstat : Text → Option TestStat
  access : Text → AccessMode → Bool
  geteuid : Nat
  getegid : Nat
  /-- `isatty(atoi(arg))` -/
  isatty : Text → Bool

/-- The exit status of a truth value. -/
def testStatus (holds : Bool) : Nat := if holds then 0 else 1

theorem testStatus_le_one (holds : Bool) : testStatus holds ≤ 1 := by
  cases holds <;> decide

/-- `parse_test_integer`: `strtol` in base 10, of the whole text, without overflow. -/
def parseTestInteger (text : Text) : Option Int :=
  let numeral (neg : Bool) (digits : Text) : Option Int :=
    let value : Int := if neg then -digitsValue 10 digits else digitsValue 10 digits
    if digits ≠ [] ∧ digits.all isdigit ∧ InRange value then some value else none
  match text.dropWhile isspace with
  | '-' :: digits => numeral true digits
  | '+' :: digits => numeral false digits
  | digits => numeral false digits

/-- The message of `parse_test_integer`, in a buffer of 256 bytes. -/
def integerExpected (text : Text) : Text :=
  copyString 256 ("test: integer expression expected: ".toList ++ text)

/-! ## 2. The primaries -/

inductive UnaryPrimary where
  | exists_ | regular | directory | symlink | symbolicLink | readable | writable | executable
  | nonempty | block | character | fifo | socket | setgid | setuid | sticky | owned | groupOwned
  | modified | terminal | nonzero | zero

namespace UnaryPrimary

def text : UnaryPrimary → Text
  | exists_ => "-e".toList
  | regular => "-f".toList
  | directory => "-d".toList
  | symlink => "-L".toList
  | symbolicLink => "-h".toList
  | readable => "-r".toList
  | writable => "-w".toList
  | executable => "-x".toList
  | nonempty => "-s".toList
  | block => "-b".toList
  | character => "-c".toList
  | fifo => "-p".toList
  | socket => "-S".toList
  | setgid => "-g".toList
  | setuid => "-u".toList
  | sticky => "-k".toList
  | owned => "-O".toList
  | groupOwned => "-G".toList
  | modified => "-N".toList
  | terminal => "-t".toList
  | nonzero => "-n".toList
  | zero => "-z".toList

def fileHas (stat : Option TestStat) (property : TestStat → Bool) : Bool := stat.any property

def holds (host : TestHost) (arg : Text) : UnaryPrimary → Bool
  | exists_ => (host.stat arg).isSome
  | regular => fileHas (host.stat arg) fun s => s.type = .regular
  | directory => fileHas (host.stat arg) fun s => s.type = .directory
  | symlink => fileHas (host.lstat arg) fun s => s.type = .symlink
  | symbolicLink => fileHas (host.lstat arg) fun s => s.type = .symlink
  | readable => host.access arg .read
  | writable => host.access arg .write
  | executable => host.access arg .execute
  | nonempty => fileHas (host.stat arg) fun s => s.size > 0
  | block => fileHas (host.stat arg) fun s => s.type = .block
  | character => fileHas (host.stat arg) fun s => s.type = .character
  | fifo => fileHas (host.stat arg) fun s => s.type = .fifo
  | socket => fileHas (host.stat arg) fun s => s.type = .socket
  | setgid => fileHas (host.stat arg) fun s => s.setgid
  | setuid => fileHas (host.stat arg) fun s => s.setuid
  | sticky => fileHas (host.stat arg) fun s => s.sticky
  | owned => fileHas (host.stat arg) fun s => s.uid = host.geteuid
  | groupOwned => fileHas (host.stat arg) fun s => s.gid = host.getegid
  | modified => fileHas (host.stat arg) fun s => s.mtime > s.atime
  | terminal => host.isatty arg
  | nonzero => arg ≠ []
  | zero => arg = []

end UnaryPrimary

inductive NumericRelation where
  | eq | ne | lt | le | gt | ge

def NumericRelation.holds (x y : Int) : NumericRelation → Bool
  | eq => x = y
  | ne => x ≠ y
  | lt => x < y
  | le => x ≤ y
  | gt => x > y
  | ge => x ≥ y

inductive BinaryPrimary where
  | equal | same | different | before | after
  | numeric (relation : NumericRelation)
  | newer | older | sameFile

namespace BinaryPrimary

def text : BinaryPrimary → Text
  | equal => "=".toList
  | same => "==".toList
  | different => "!=".toList
  | before => "<".toList
  | after => ">".toList
  | numeric .eq => "-eq".toList
  | numeric .ne => "-ne".toList
  | numeric .lt => "-lt".toList
  | numeric .le => "-le".toList
  | numeric .gt => "-gt".toList
  | numeric .ge => "-ge".toList
  | newer => "-nt".toList
  | older => "-ot".toList
  | sameFile => "-ef".toList

def filesRelated (s₁ s₂ : Option TestStat) (relation : TestStat → TestStat → Bool) : Bool :=
  match s₁, s₂ with
  | some s₁, some s₂ => relation s₁ s₂
  | _, _ => false

/-- The exit status of a comparison; that of numbers is an error if an operand is none. -/
def status (host : TestHost) (a b : Text) : BinaryPrimary → Nat
  | equal => testStatus (a = b)
  | same => testStatus (a = b)
  | different => testStatus (a ≠ b)
  | before => testStatus (a < b)
  | after => testStatus (b < a)
  | numeric relation =>
    match parseTestInteger a, parseTestInteger b with
    | some x, some y => testStatus (relation.holds x y)
    | _, _ => 2
  | newer => testStatus (filesRelated (host.stat a) (host.stat b) fun s₁ s₂ => s₁.mtime > s₂.mtime)
  | older => testStatus (filesRelated (host.stat a) (host.stat b) fun s₁ s₂ => s₁.mtime < s₂.mtime)
  | sameFile => testStatus (filesRelated (host.stat a) (host.stat b) fun s₁ s₂ =>
      s₁.dev = s₂.dev && s₁.ino = s₂.ino)

end BinaryPrimary

/-! ## 3. The tables of `test_primary` -/

def unaryOperators (host : TestHost) (arg : Text) : List (Text × Bool) :=
  [ ("-e".toList, (host.stat arg).isSome),
    ("-f".toList, (host.stat arg).any fun s => s.type = .regular),
    ("-d".toList, (host.stat arg).any fun s => s.type = .directory),
    ("-L".toList, (host.lstat arg).any fun s => s.type = .symlink),
    ("-h".toList, (host.lstat arg).any fun s => s.type = .symlink),
    ("-r".toList, host.access arg .read),
    ("-w".toList, host.access arg .write),
    ("-x".toList, host.access arg .execute),
    ("-s".toList, (host.stat arg).any fun s => s.size > 0),
    ("-b".toList, (host.stat arg).any fun s => s.type = .block),
    ("-c".toList, (host.stat arg).any fun s => s.type = .character),
    ("-p".toList, (host.stat arg).any fun s => s.type = .fifo),
    ("-S".toList, (host.stat arg).any fun s => s.type = .socket),
    ("-g".toList, (host.stat arg).any fun s => s.setgid),
    ("-u".toList, (host.stat arg).any fun s => s.setuid),
    ("-k".toList, (host.stat arg).any fun s => s.sticky),
    ("-O".toList, (host.stat arg).any fun s => s.uid = host.geteuid),
    ("-G".toList, (host.stat arg).any fun s => s.gid = host.getegid),
    ("-N".toList, (host.stat arg).any fun s => s.mtime > s.atime),
    ("-t".toList, host.isatty arg),
    ("-n".toList, arg ≠ []),
    ("-z".toList, arg = []) ]

def stringOperators (lhs rhs : Text) : List (Text × Bool) :=
  [ ("=".toList, lhs = rhs), ("==".toList, lhs = rhs), ("!=".toList, lhs ≠ rhs),
    ("<".toList, strcmp lhs rhs < 0), (">".toList, strcmp lhs rhs > 0) ]

/-- The comparisons of numbers. -/
def numericOperators : List (Text × (Int → Int → Bool)) :=
  [ ("-eq".toList, fun l r => l = r), ("-ne".toList, fun l r => l ≠ r),
    ("-lt".toList, fun l r => l < r), ("-le".toList, fun l r => l ≤ r),
    ("-gt".toList, fun l r => l > r), ("-ge".toList, fun l r => l ≥ r) ]

def fileOperators (s₁ s₂ : TestStat) : List (Text × Bool) :=
  [ ("-nt".toList, s₁.mtime > s₂.mtime), ("-ot".toList, s₁.mtime < s₂.mtime),
    ("-ef".toList, s₁.dev = s₂.dev && s₁.ino = s₂.ino) ]

/-- The branch of `test_primary` for two arguments. -/
def testUnary (host : TestHost) (op arg : Text) : Nat :=
  match (unaryOperators host arg).lookup op with
  | some holds => testStatus holds
  | none => 1

/-- The branch of `test_primary` for three arguments: the status, and what is in `err`. -/
def testBinary (host : TestHost) (lhs op rhs err : Text) : Nat × Text :=
  match (stringOperators lhs rhs).lookup op with
  | some holds => (testStatus holds, err)
  | none =>
    match numericOperators.lookup op with
    | some relation =>
      match parseTestInteger lhs with
      | none => (2, integerExpected lhs)
      | some l =>
        match parseTestInteger rhs with
        | none => (2, integerExpected rhs)
        | some r => (testStatus (relation l r), err)
    | none =>
      if op = "-nt".toList ∨ op = "-ot".toList ∨ op = "-ef".toList then
        match host.stat lhs, host.stat rhs with
        | some s₁, some s₂ => (testStatus ((fileOperators s₁ s₂).lookup op == some true), err)
        | _, _ => (1, err)
      else (1, err)

/-! ## 4. Every primary is found -/

section Found

variable (host : TestHost)

theorem testUnary_text (u : UnaryPrimary) (arg : Text) :
    testUnary host u.text arg = testStatus (u.holds host arg) := by
  cases u <;> rfl

theorem testUnary_le_one (op arg : Text) : testUnary host op arg ≤ 1 := by
  unfold testUnary
  split
  · exact testStatus_le_one _
  · exact Nat.le_refl 1

theorem strcmp_lt_zero (a b : Text) : decide (strcmp a b < 0) = decide (a < b) := by
  unfold strcmp
  split_ifs with hlt hgt <;> simp [hlt]

theorem strcmp_gt_zero (a b : Text) : decide (strcmp a b > 0) = decide (b < a) := by
  unfold strcmp
  split_ifs with hlt hgt
  · simp [hlt.le]
  · simp [hgt]
  · simp [hgt]

theorem testBinary_text (op : BinaryPrimary) (a b err : Text) :
    (testBinary host a op.text b err).1 = op.status host a b := by
  have hnumeric : ∀ relation : Int → Int → Bool,
      (match parseTestInteger a with
        | none => (2, integerExpected a)
        | some l =>
          match parseTestInteger b with
          | none => (2, integerExpected b)
          | some r => (testStatus (relation l r), err)).1 =
        match parseTestInteger a, parseTestInteger b with
        | some x, some y => testStatus (relation x y)
        | _, _ => 2 := by
    intro relation
    cases parseTestInteger a <;> cases parseTestInteger b <;> rfl
  have hfile : ∀ holds : TestStat → TestStat → Bool,
      (match host.stat a, host.stat b with
        | some s₁, some s₂ => (testStatus (some (holds s₁ s₂) == some true), err)
        | _, _ => (1, err)).1 =
        testStatus (BinaryPrimary.filesRelated (host.stat a) (host.stat b) holds) := by
    intro holds
    cases host.stat a <;> cases host.stat b
    · rfl
    · rfl
    · rfl
    · simp [BinaryPrimary.filesRelated]
  cases op with
  | equal | same | different => rfl
  | before => exact congrArg testStatus (strcmp_lt_zero a b)
  | after => exact congrArg testStatus (strcmp_gt_zero a b)
  | numeric relation => cases relation <;> exact hnumeric _
  | newer | older | sameFile => exact hfile _

theorem testUnary_binary (op : BinaryPrimary) (arg : Text) : testUnary host op.text arg = 1 := by
  cases op with
  | numeric relation => cases relation <;> rfl
  | _ => rfl

end Found

end Arksh
