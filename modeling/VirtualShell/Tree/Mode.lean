import VirtualShell.Text.Bytes

/-!
# Permission bits

Modes are words of which twelve bits count. `Mode.read?` reads an octal mode of at most four digits
or a list of symbolic clauses (`u+x,go-w`, `a=r`) that change a mode; `Mode.permissions` writes the
bits as the nine letters of a listing.
-/

namespace VirtualShell.Mode

/-- The bits that count. -/
def mask : UInt32 := 0o7777

/-! ## Symbolic clauses -/

/-- What a clause does with its bits. -/
inductive Operator
  | add
  | remove
  | set
  deriving DecidableEq

def Operator.read? (c : UInt8) : Option Operator :=
  if c = Ascii.plus then some .add
  else if c = Ascii.minus then some .remove
  else if c = Ascii.equals then some .set
  else none

/-- The bits of a class of users. -/
def classBits? (c : UInt8) : Option UInt32 :=
  if c = 117 then some 0o4700
  else if c = 103 then some 0o2070
  else if c = 111 then some 0o1007
  else if c = 97 then some 0o7777
  else none

/-- The bits of a permission, in every class. -/
def permissionBits? (c : UInt8) : Option UInt32 :=
  if c = 114 then some 0o444
  else if c = 119 then some 0o222
  else if c = 120 then some 0o111
  else if c = 115 then some 0o6000
  else if c = 116 then some 0o1000
  else none

/-- A change of some bits in some classes. -/
structure Clause where
  /-- The bits of the classes that the clause names, all of them if it names none. -/
  who : UInt32
  operator : Operator
  bits : UInt32
  deriving DecidableEq

namespace Clause

/-- Reads classes, an operator and permissions. -/
def read? (text : Bytes) : Option Clause := do
  let classes := text.takeWhile (fun c => (classBits? c).isSome)
  let named := (classes.filterMap classBits?).foldl (· ||| ·) 0
  let who := if named = 0 then mask else named
  match text.drop classes.length with
  | [] => none
  | op :: permissions =>
    let operator ← Operator.read? op
    let bits ← permissions.mapM permissionBits?
    some ⟨who, operator, bits.foldl (· ||| ·) 0 &&& who⟩

/-- Changes a mode. Setting clears just the nine permission bits of the classes first. -/
def apply (mode : UInt32) (clause : Clause) : UInt32 :=
  match clause.operator with
  | .add => mode ||| clause.bits
  | .remove => mode &&& ~~~clause.bits
  | .set => (mode &&& ~~~(clause.who &&& 0o777)) ||| clause.bits

end Clause

/-- The pieces between commas, empty ones too. -/
def clauseTexts : Bytes → List Bytes
  | [] => [[]]
  | c :: rest =>
    if c = Ascii.comma then [] :: clauseTexts rest
    else match clauseTexts rest with
      | [] => [[c]]
      | first :: others => (c :: first) :: others

/-- The mode that a text makes of the current one. -/
def read? (text : Bytes) (current : UInt32) : Option UInt32 :=
  if text.isEmpty then none
  else if text.all isOctalDigit then
    if text.length ≤ 4 then
      some ((text.foldl (fun n c => n * 8 + digitValue c) 0).toUInt32)
    else none
  else do
    let clauses ← (clauseTexts text).mapM Clause.read?
    some (clauses.foldl Clause.apply current &&& mask)

/-! ## Listing -/

/-- A letter if the bit is set, else a dash. -/
def flag (mode bit : UInt32) (letter : Char) : UInt8 :=
  if mode &&& bit ≠ 0 then letter.toUInt8 else Ascii.minus

/-- The letter of an execute bit that shares its place with a special bit. -/
def executeFlag (mode bit special : UInt32) (both only : Char) : UInt8 :=
  if mode &&& special ≠ 0 then
    (if mode &&& bit ≠ 0 then both.toUInt8 else only.toUInt8)
  else flag mode bit 'x'

/-- The nine letters of a listing. -/
def permissions (mode : UInt32) : Bytes :=
  [flag mode 0o400 'r', flag mode 0o200 'w', executeFlag mode 0o100 0o4000 's' 'S',
    flag mode 0o40 'r', flag mode 0o20 'w', executeFlag mode 0o10 0o2000 's' 'S',
    flag mode 0o4 'r', flag mode 0o2 'w', executeFlag mode 0o1 0o1000 't' 'T']

/-- The twelve bits as at least four octal digits. -/
def octal (mode : UInt32) : Bytes :=
  Bytes.padLeft 4 Ascii.zero (inBase 8 (mode &&& mask).toNat)

end VirtualShell.Mode
