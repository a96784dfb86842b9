import VirtualShell.Number.Reading
import VirtualShell.Tree.Lookup

/-!
# Conditions

The expressions of `test`: tests of files, texts and whole numbers, negated with `!`, grouped with
parentheses, and joined with `-a` and `-o`, of which `-a` binds tighter. The words are evaluated
from left to right, and every operand is evaluated.

A word in the middle of three that names a binary operator makes the three a comparison, whatever
the first of them is; only `!` and an opening parenthesis come before that.
-/

namespace VirtualShell

/-! ## Operators -/

/-- Tests of what a path leads to. -/
inductive FileTest
  | present
  | regular
  | directory
  | symlink
  | nonEmpty
  deriving DecidableEq

def FileTest.ofWord? (word : Bytes) : Option FileTest :=
  if word = ascii "-e" then some .present
  else if word = ascii "-f" then some .regular
  else if word = ascii "-d" then some .directory
  else if word = ascii "-L" then some .symlink
  else if word = ascii "-s" then some .nonEmpty
  else none

/-- The test of a path; only the test for a link does not follow it. -/
def FileTest.holds (tree : Tree) (path : Bytes) (t : FileTest) : Bool :=
  let passes (p : Inode → Bool) : Outcome Inode → Bool
    | .ok node => p node
    | .error _ => false
  match t with
  | .present => passes (fun _ => true) (tree.stat path)
  | .regular => passes Inode.isFile (tree.stat path)
  | .directory => passes Inode.isDirectory (tree.stat path)
  | .symlink => passes Inode.isSymlink (tree.lstat path)
  | .nonEmpty => passes (fun node => 0 < node.size) (tree.stat path)

inductive UnaryTest
  | emptyText
  | someText
  | file (t : FileTest)
  deriving DecidableEq

def UnaryTest.ofWord? (word : Bytes) : Option UnaryTest :=
  if word = ascii "-z" then some .emptyText
  else if word = ascii "-n" then some .someText
  else (FileTest.ofWord? word).map .file

/-- A relation of whole numbers. -/
inductive Relation
  | eq
  | ne
  | lt
  | le
  | gt
  | ge
  deriving DecidableEq

def Relation.holds (a b : Int) : Relation → Bool
  | .eq => a == b
  | .ne => a != b
  | .lt => a < b
  | .le => a ≤ b
  | .gt => b < a
  | .ge => b ≤ a

inductive BinaryTest
  | sameText
  | otherText
  | number (r : Relation)
  deriving DecidableEq

def BinaryTest.ofWord? (word : Bytes) : Option BinaryTest :=
  if word = ascii "=" ∨ word = ascii "==" then some .sameText
  else if word = ascii "!=" then some .otherText
  else if word = ascii "-eq" then some (.number .eq)
  else if word = ascii "-ne" then some (.number .ne)
  else if word = ascii "-lt" then some (.number .lt)
  else if word = ascii "-le" then some (.number .le)
  else if word = ascii "-gt" then some (.number .gt)
  else if word = ascii "-ge" then some (.number .ge)
  else none

/-! ## Evaluation -/

/-- Why words are no condition. -/
inductive ConditionError
  | argumentExpected
  | closingExpected
  | integerExpected (text : Bytes)
  | unexpectedOperator (word : Bytes)
  deriving DecidableEq

def ConditionError.message : ConditionError → Bytes
  | argumentExpected => ascii "argument expected"
  | closingExpected => ascii "')' expected"
  | integerExpected text => text ++ ascii ": integer expression expected"
  | unexpectedOperator word => word ++ ascii ": unexpected operator"

namespace Condition

/-- A text as a whole number. -/
def readInteger (text : Bytes) : Except ConditionError Int :=
  match parseInt text with
  | some n => .ok n
  | none => .error (.integerExpected text)

def compare (op : BinaryTest) (left right : Bytes) : Except ConditionError Bool :=
  match op with
  | .sameText => .ok (left == right)
  | .otherText => .ok (left != right)
  | .number r => do
    let a ← readInteger left
    let b ← readInteger right
    return r.holds a b

def examine (probe : FileTest → Bytes → Bool) (op : UnaryTest) (operand : Bytes) : Bool :=
  match op with
  | .emptyText => operand.isEmpty
  | .someText => !operand.isEmpty
  | .file t => probe t operand

/-- The value of an expression and the words behind it. -/
abbrev Reading := Except ConditionError (Bool × List Bytes)

/-- Evaluates a comparison, a test or a lone text. -/
def evaluateTest (probe : FileTest → Bytes → Bool) : List Bytes → Reading
  | [] => .error .argumentExpected
  | [word] => .ok (!word.isEmpty, [])
  | [word, operand] =>
    match UnaryTest.ofWord? word with
    | some op => .ok (examine probe op operand, [])
    | none => .ok (!word.isEmpty, [operand])
  | word :: second :: third :: rest =>
    match BinaryTest.ofWord? second with
    | some op => do return (← compare op word third, rest)
    | none =>
      match UnaryTest.ofWord? word with
      | some op => .ok (examine probe op second, third :: rest)
      | none => .ok (!word.isEmpty, second :: third :: rest)

mutual

/-- Evaluates a negation, a group or a test. -/
def evaluateTerm (probe : FileTest → Bytes → Bool) : Nat → List Bytes → Reading
  | 0, _ | _, [] => .error .argumentExpected
  | fuel + 1, word :: rest =>
    if word = ascii "!" then do
      let (value, rest) ← evaluateTerm probe fuel rest
      return (!value, rest)
    else if word = ascii "(" ∧ !rest.isEmpty then do
      let (value, rest) ← evaluateEither probe fuel rest
      match rest with
      | [] => throw .closingExpected
      | closing :: rest =>
        if closing = ascii ")" then return (value, rest) else throw .closingExpected
    else evaluateTest probe (word :: rest)

/-- Evaluates terms joined by `-a`. -/
def evaluateBoth (probe : FileTest → Bytes → Bool) : Nat → List Bytes → Reading
  | 0, _ => .error .argumentExpected
  | fuel + 1, words => do
    let (value, rest) ← evaluateTerm probe fuel words
    evaluateBothRest probe fuel value rest

/-- Goes on behind a term. -/
def evaluateBothRest (probe : FileTest → Bytes → Bool) : Nat → Bool → List Bytes → Reading
  | fuel + 1, value, word :: rest =>
    if word = ascii "-a" then do
      let (other, rest) ← evaluateTerm probe fuel rest
      evaluateBothRest probe fuel (value && other) rest
    else .ok (value, word :: rest)
  | _, value, rest => .ok (value, rest)

/-- Evaluates conjunctions joined by `-o`. -/
def evaluateEither (probe : FileTest → Bytes → Bool) : Nat → List Bytes → Reading
  | 0, _ => .error .argumentExpected
  | fuel + 1, words => do
    let (value, rest) ← evaluateBoth probe fuel words
    evaluateEitherRest probe fuel value rest

/-- Goes on behind a conjunction. -/
def evaluateEitherRest (probe : FileTest → Bytes → Bool) : Nat → Bool → List Bytes → Reading
  | fuel + 1, value, word :: rest =>
    if word = ascii "-o" then do
      let (other, rest) ← evaluateBoth probe fuel rest
      evaluateEitherRest probe fuel (value || other) rest
    else .ok (value, word :: rest)
  | _, value, rest => .ok (value, rest)

end

/-- Evaluates words. A word takes at most three steps. -/
def evaluate (probe : FileTest → Bytes → Bool) (words : List Bytes) :
    Except ConditionError Bool := do
  let (value, rest) ← evaluateEither probe (3 * words.length + 3) words
  match rest with
  | [] => return value
  | word :: _ => throw (.unexpectedOperator word)

end Condition

end VirtualShell
