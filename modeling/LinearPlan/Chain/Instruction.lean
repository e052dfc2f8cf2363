import LinearPlan.Chain.Kind
import LinearPlan.Text.Fields

/-!
# Chain instructions

A chain is handed on as a line of fields: an optional execution type, the operation, the operands
with the result last, the kind of the chain, and the number of threads. An operand is a name with
up to two types. Reading and writing such a line are both given here.
-/
namespace LinearPlan.Chain

def fieldMark : Char := '°'

def typeMark : Char := '·'

def opcode : String := "mmchain"

def execType : String := "CP"

structure Operand where
  name : String
  dataType : String
  valueType : String
deriving DecidableEq, Repr, Inhabited

structure Instruction where
  x : Operand
  v : Operand
  w : Operand
  out : Operand
  kind : Kind
  threads : Int
deriving DecidableEq, Repr

def Operand.absent : Operand := ⟨"", "", ""⟩

inductive OperandFault where
  | emptyName (text : String)
  | tooManyFields (text : String)
deriving DecidableEq, Repr

def OperandFault.message : OperandFault → String
  | .emptyName text => s!"empty operand name in {Text.quoted text}"
  | .tooManyFields text => s!"too many fields in operand {Text.quoted text}"

inductive IntegerFault where
  | malformed
  | outOfRange
deriving DecidableEq, Repr

inductive InvalidInstruction where
  | invalidKind (kind : Kind)
  | thirdOperand (kind : Kind) (third : String)
  | missingNames (instruction : Instruction)
deriving DecidableEq, Repr

inductive InstructionFault where
  | otherOperation (text : String)
  | fieldCount (count : Nat) (text : String)
  | operand (position : Nat) (cause : OperandFault)
  | unknownKind (name : String)
  | threads (text : String) (cause : IntegerFault)
  | invalid (cause : InvalidInstruction)
deriving DecidableEq, Repr

def Operand.fields (o : Operand) : List String :=
  [o.name] ++ (if o.dataType ≠ "" ∨ o.valueType ≠ "" then [o.dataType] else []) ++
    (if o.valueType ≠ "" then [o.valueType] else [])

def marked (mark : Char) (parts : List String) : String :=
  String.ofList (Text.joined mark (parts.map String.toList))

def Operand.text (o : Operand) : String := marked typeMark o.fields

def Instruction.fields (i : Instruction) : List String :=
  [execType, opcode, i.x.text, i.v.text] ++ (if i.w.name ≠ "" then [i.w.text] else []) ++
    [i.out.text, i.kind.name, toString i.threads]

def Instruction.text (i : Instruction) : String := marked fieldMark i.fields

def Instruction.describe (i : Instruction) : String :=
  "\x7bX:" ++ i.x.text ++ " V:" ++ i.v.text ++ " W:" ++ i.w.text ++ " Out:" ++ i.out.text ++
    " Type:" ++ i.kind.name ++ " NumThreads:" ++ toString i.threads ++ "\x7d"

def InvalidInstruction.message : InvalidInstruction → String
  | .invalidKind kind =>
    s!"invalid chain type {kind.name} for {Text.quoted opcode} instruction"
  | .thirdOperand kind third =>
    s!"chain type {kind.name} takes {kind.numOperands} operands, " ++
      s!"but third operand given is {Text.quoted third}"
  | .missingNames instruction =>
    s!"{Text.quoted opcode} instruction with missing operand names: {instruction.describe}"

/-- Why an instruction cannot be executed, if it cannot. -/
def Instruction.invalid? (i : Instruction) : Option InvalidInstruction :=
  if !i.kind.isValid then some (.invalidKind i.kind)
  else if decide (i.w.name ≠ "") != i.kind.hasThird then some (.thirdOperand i.kind i.w.name)
  else if i.x.name = "" ∨ i.v.name = "" ∨ i.out.name = "" then some (.missingNames i)
  else none

def Operand.parse (text : String) : Except OperandFault Operand :=
  match (Text.fields typeMark text.toList).map String.ofList with
  | "" :: _ => .error (.emptyName text)
  | [name] => .ok ⟨name, "", ""⟩
  | [name, dataType] => .ok ⟨name, dataType, ""⟩
  | [name, dataType, valueType] => .ok ⟨name, dataType, valueType⟩
  | _ => .error (.tooManyFields text)

/-- The value of decimal digits. Reading stops with an error at the first character that is no
digit, or at the first digit with which the value reaches `2 ^ 64`. -/
def digitsValue : List Char → Nat → Except IntegerFault Nat
  | [], value => .ok value
  | c :: rest, value =>
    if '0' ≤ c ∧ c ≤ '9' then
      let next := value * 10 + (c.toNat - 48)
      if next < Nat.pow 2 64 then digitsValue rest next else .error .outOfRange
    else .error .malformed

def signedValue (negative : Bool) (digits : List Char) : Except IntegerFault Int :=
  if digits = [] then .error .malformed
  else match digitsValue digits 0 with
    | .error fault => .error fault
    | .ok n =>
      if negative then if n ≤ Nat.pow 2 63 then .ok (-(n : Int)) else .error .outOfRange
      else if n < Nat.pow 2 63 then .ok (n : Int) else .error .outOfRange

def integer : List Char → Except IntegerFault Int
  | '-' :: digits => signedValue true digits
  | '+' :: digits => signedValue false digits
  | digits => signedValue false digits

def parseOperands : Nat → List String → Except InstructionFault (List Operand)
  | _, [] => .ok []
  | position, text :: rest =>
    match Operand.parse text with
    | .error cause => .error (.operand position cause)
    | .ok o => match parseOperands (position + 1) rest with
      | .error fault => .error fault
      | .ok os => .ok (o :: os)

def parseTail (kind threads : String) : Except InstructionFault (Kind × Int) :=
  match Kind.ofName? kind with
  | none => .error (.unknownKind kind)
  | some k => match integer threads.toList with
    | .error cause => .error (.threads threads cause)
    | .ok n => .ok (k, n)

def ofOperands (operands : List Operand) (kind : Kind) (threads : Int) : Option Instruction :=
  match operands with
  | [x, v, out] => some ⟨x, v, .absent, out, kind, threads⟩
  | [x, v, w, out] => some ⟨x, v, w, out, kind, threads⟩
  | _ => none

def parseFields (text : String) (operands : List String) (kind threads : String) :
    Except InstructionFault Instruction := do
  let operands ← parseOperands 0 operands
  let (kind, threads) ← parseTail kind threads
  match ofOperands operands kind threads with
  | none => .error (.fieldCount (operands.length + 2) text)
  | some i => match i.invalid? with
    | some cause => .error (.invalid cause)
    | none => .ok i

def body? (parts : List String) : Option (List String) :=
  match parts with
  | first :: rest =>
    if first = opcode then some rest
    else if first = execType then match rest with
      | second :: rest => if second = opcode then some rest else none
      | [] => none
    else none
  | [] => none

def Instruction.parse (text : String) : Except InstructionFault Instruction :=
  match body? ((Text.fields fieldMark text.toList).map String.ofList) with
  | none => .error (.otherOperation text)
  | some [x, v, out, kind, threads] => parseFields text [x, v, out] kind threads
  | some [x, v, w, out, kind, threads] => parseFields text [x, v, w, out] kind threads
  | some other => .error (.fieldCount other.length text)

def IntegerFault.message : IntegerFault → String
  | .malformed => "invalid syntax"
  | .outOfRange => "value out of range"

def InstructionFault.message : InstructionFault → String
  | .otherOperation text => s!"not a {Text.quoted opcode} instruction: {Text.quoted text}"
  | .fieldCount count text =>
    s!"{Text.quoted opcode} instruction requires 5 or 6 fields, got {count} in {Text.quoted text}"
  | .operand position cause =>
    s!"parsing {Text.quoted opcode} instruction operand #{position}: {cause.message}"
  | .unknownKind name =>
    s!"parsing {Text.quoted opcode} instruction: {Kind.unknownName name}"
  | .threads text cause =>
    s!"parsing number of threads of {Text.quoted opcode} instruction: " ++
      s!"strconv.Atoi: parsing {Text.quoted text}: {cause.message}"
  | .invalid cause => cause.message

end LinearPlan.Chain
