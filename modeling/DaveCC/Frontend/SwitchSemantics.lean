import DaveCC.Arith.FormatOrder
import DaveCC.Container.Qsort
import DaveCC.Frontend.IntegralConversion

/-!
# Semantic analysis of switch statements

The analyser collects the case labels of a switch, chooses the integer type in
which they are compared, sorts them with `qsort`, reports the duplicates it finds
between neighbours, and notes facts that the code generator relies on.
-/

namespace DaveCC.Frontend

open DaveCC.Arith DaveCC.Backend DaveCC.Container

/-- A case label: its value and the node that stands for it in the tree. -/
structure CaseLabel where
  value : BitVec 64
  node : Nat
  deriving DecidableEq, Repr

/-- A statement as the search for case labels sees it: every node that is neither
a label nor a switch is an inner node with the statements below it. -/
inductive SwitchedStatement where
  | leaf
  | children (first rest : SwitchedStatement)
  | caseLabel (label : CaseLabel) (statement : SwitchedStatement)
  | defaultLabel (node : Nat) (statement : SwitchedStatement)
  | switch (statement : SwitchedStatement)
  deriving Repr

namespace SwitchedStatement

/-- The case labels that belong to the switch around a statement. -/
def cases : SwitchedStatement → List CaseLabel
  | leaf => []
  | children first rest => first.cases ++ rest.cases
  | caseLabel label statement => label :: statement.cases
  | defaultLabel _ statement => statement.cases
  | switch _ => []

/-- The default labels that belong to the switch around a statement. -/
def defaults : SwitchedStatement → List Nat
  | leaf => []
  | children first rest => first.defaults ++ rest.defaults
  | caseLabel _ statement => statement.defaults
  | defaultLabel node statement => node :: statement.defaults
  | switch _ => []

end SwitchedStatement

/-- A switch statement with a controlling expression of an integral type. -/
structure SwitchStatement [Compiler] where
  exprType : TypeRecord
  /-- The constants of the type when it is an enumeration. -/
  enumerators : List (BitVec 64)
  /-- The value of the controlling expression when it is a constant. -/
  constant : Option (BitVec 64)
  body : SwitchedStatement
  format : IntFormat
  hasFormat : exprType.intFormat? = some format
  wellFormed : exprType.WellFormed
  caseCanonical : ∀ label ∈ body.cases, format.Canonical label.value
  constantCanonical : ∀ value ∈ constant, format.Canonical value

/-- What the visitor keeps while it walks the tree of a switch. -/
structure SwitchResolver where
  switchLevel : Nat
  cases : List CaseLabel
  defaultNode : Option Nat
  minCaseValue : BitVec 64
  maxCaseValue : BitVec 64
  /-- The default labels reported as duplicates. -/
  duplicateDefaults : List Nat

namespace SwitchResolver

def initial : SwitchResolver :=
  { switchLevel := 0
    cases := []
    defaultNode := none
    minCaseValue := BitVec.intMax 64
    maxCaseValue := BitVec.intMin 64
    duplicateDefaults := [] }

/-- A case label of the switch under analysis. -/
def addCase (resolver : SwitchResolver) (label : CaseLabel) : SwitchResolver :=
  { resolver with
    cases := resolver.cases ++ [label]
    minCaseValue :=
      if label.value.slt resolver.minCaseValue then label.value else resolver.minCaseValue
    maxCaseValue :=
      if resolver.maxCaseValue.slt label.value then label.value else resolver.maxCaseValue }

/-- A default label of the switch under analysis. The last one is kept. -/
def addDefault (resolver : SwitchResolver) (node : Nat) : SwitchResolver :=
  { resolver with
    defaultNode := some node
    duplicateDefaults :=
      if resolver.defaultNode.isSome then resolver.duplicateDefaults ++ [node]
      else resolver.duplicateDefaults }

def enterSwitch (resolver : SwitchResolver) : SwitchResolver :=
  { resolver with switchLevel := resolver.switchLevel + 1 }

def leaveSwitch (resolver : SwitchResolver) : SwitchResolver :=
  { resolver with switchLevel := resolver.switchLevel - 1 }

end SwitchResolver

/-- `ASTNodeVisit` with `ResolveSwitchStatement`. Labels of a nested switch are not
recorded. -/
def resolveSwitchStatement : SwitchedStatement → SwitchResolver → SwitchResolver
  | .leaf, resolver => resolver
  | .children first rest, resolver =>
    resolveSwitchStatement rest (resolveSwitchStatement first resolver)
  | .caseLabel label statement, resolver =>
    resolveSwitchStatement statement
      (if 1 < resolver.switchLevel then resolver else resolver.addCase label)
  | .defaultLabel node statement, resolver =>
    resolveSwitchStatement statement
      (if 1 < resolver.switchLevel then resolver else resolver.addDefault node)
  | .switch statement, resolver =>
    (resolveSwitchStatement statement resolver.enterSwitch).leaveSwitch

/-! ## The control type -/

/-- The bytes that the size of a case value takes. -/
def caseWidth (value : BitVec 64) : Nat :=
  let size := if value.slt 0 then -value else value
  if size = 0 then 0
  else if size.slt (1 <<< 8) then 1
  else if size.slt (1 <<< 16) then 2
  else if size.slt (1 <<< 32) then 4
  else 8

def determineControlType [TypeSizes] (exprType : TypeRecord) (cases : List CaseLabel) :
    PromotedType :=
  let maxCaseWidth := (cases.map fun label => caseWidth label.value).foldl max 0
  let width := if maxCaseWidth < exprType.size then exprType.size else maxCaseWidth
  if width ≤ TypeSizes.intSize then .int
  else if width ≤ TypeSizes.longSize then .long
  else .longLong

/-- No case value has its sign bit set. -/
def allCasesPositive (cases : List CaseLabel) : Bool :=
  !cases.any fun label => label.value.slt 0

/-- The type of the controlling expression once it is converted. An enumeration
is converted to an unsigned type when every case is positive. -/
def controlExprType [Compiler] [TypeSizes] (exprType : TypeRecord)
    (cases : List CaseLabel) : TypeRecord :=
  let controlType := determineControlType exprType cases
  if exprType.isEnum then
    exprType.convertType (controlType.record (allCasesPositive cases))
  else exprType.convertType (controlType.record exprType.isUnsigned)

/-- `CompareCaseValue`: the low 32 bits of the difference, as an `int`. -/
def compareCaseValue (first second : CaseLabel) : ℤ :=
  ((first.value - second.value).setWidth 32).toInt

inductive SwitchError where
  | duplicateDefault (node : Nat)
  | duplicateCaseValue (node : Nat) (value : BitVec 64) (previous : Nat)
  deriving DecidableEq, Repr

/-- The duplicates reported between neighbours of the sorted labels. -/
def duplicateCaseValues : List CaseLabel → List SwitchError
  | first :: second :: rest =>
    (if first.value = second.value then
      [.duplicateCaseValue second.node second.value first.node] else []) ++
      duplicateCaseValues (second :: rest)
  | _ => []

/-- The fields of a switch node that the code generator reads. -/
structure SwitchNode where
  exprType : TypeRecord
  constant : Option (BitVec 64)
  cases : List CaseLabel
  defaultNode : Option Nat
  density : Float32
  minCaseValue : BitVec 64
  maxCaseValue : BitVec 64
  allCasesCovered : Bool
  allCasesPositive : Bool

/-- The number of labels divided by the distance of the least and greatest value. -/
def caseDensity (resolver : SwitchResolver) : Float32 :=
  let labels := resolver.cases.length + if resolver.defaultNode.isSome then 1 else 0
  let mass := (UInt64.ofNat labels).toFloat32
  let volume := (Int64.ofBitVec (resolver.maxCaseValue - resolver.minCaseValue)).toFloat32
  if volume == 0 then 0 else mass / volume

namespace SwitchStatement

variable [Compiler]

/-- The walk over the whole statement, the switch included. -/
def resolver (statement : SwitchStatement) : SwitchResolver :=
  resolveSwitchStatement (.switch statement.body) .initial

/-- The test of `AnalyzeEnumSwitch`: no default, and every enumerator is a case.
The source looks the values up in a sorted array. -/
def allCasesCovered (statement : SwitchStatement) : Bool :=
  statement.exprType.isEnum && statement.resolver.defaultNode.isNone &&
    statement.enumerators.all fun value =>
      statement.resolver.cases.any fun label => label.value == value

/-- The type in which the labels are compared. -/
def controlType [TypeSizes] (statement : SwitchStatement) : TypeRecord :=
  controlExprType statement.exprType statement.resolver.cases

/-- The format in which the labels are compared. -/
def controlFormat [TypeSizes] (statement : SwitchStatement) : IntFormat :=
  wordFormat (some statement.controlType)

/-- The value of the converted controlling expression. -/
def convert [TypeSizes] (statement : SwitchStatement) (value : BitVec 64) : BitVec 64 :=
  statement.controlFormat.canonicalize value

/-- `AnalyzeSwitchStatement`, with the array that `qsort` leaves. -/
def analyze [TypeSizes] (statement : SwitchStatement) (sorted : List CaseLabel) :
    SwitchNode :=
  { exprType := statement.controlType
    constant := statement.constant.map statement.convert
    cases := sorted
    defaultNode := statement.resolver.defaultNode
    density := caseDensity statement.resolver
    minCaseValue := statement.resolver.minCaseValue
    maxCaseValue := statement.resolver.maxCaseValue
    allCasesCovered := statement.allCasesCovered
    allCasesPositive := allCasesPositive statement.resolver.cases }

/-- The errors of the analysis. -/
def errors (statement : SwitchStatement) (sorted : List CaseLabel) : List SwitchError :=
  statement.resolver.duplicateDefaults.map .duplicateDefault ++ duplicateCaseValues sorted

end SwitchStatement

end DaveCC.Frontend
