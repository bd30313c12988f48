import DaveCC.Frontend.SwitchSemantics

/-!
# Code generated for switch statements

The dispatch code of a switch stands before its body, which emits the labels of the
cases. It is a table of branches indexed by the controlling expression, a search by
comparisons, or one branch when the controlling expression is a constant.
-/

namespace DaveCC.Backend

open DaveCC.Arith DaveCC.Frontend

/-- The labels that dispatch code branches to. All but the one in the middle of a
search are emitted after it. -/
inductive SwitchLabel where
  | caseLabel (node : Nat)
  | defaultLabel (node : Nat)
  | breakLabel
  | lowerHalf (start finish : Nat)
  deriving DecidableEq, Repr

/-- The dispatch instructions. All of them read the controlling expression. -/
inductive SwitchInstruction where
  /-- A comparison with a constant and a branch when it is true. -/
  | compareBranch (comparison : IROpcode) (constant : BitVec 64) (target : SwitchLabel)
  | bra (target : SwitchLabel)
  | label (label : SwitchLabel)
  /-- A computed branch by the expression less the given constant, if any. -/
  | cbra (subtrahend : Option (BitVec 64))
  | jumpTableBranch (target : SwitchLabel)
  deriving DecidableEq, Repr

/-- The code of a switch: its dispatch code, the type of the controlling expression
in it, and whether the body is generated. -/
structure SwitchCode where
  exprType : TypeRecord
  dispatch : List SwitchInstruction
  generatesBody : Bool

/-- Where the dispatch code passes control. -/
inductive SwitchOutcome where
  | reaches (label : SwitchLabel)
  | fallsThrough
  | outsideTable
  deriving DecidableEq, Repr

/-- How far the execution of dispatch code has come. -/
inductive DispatchState where
  | running
  /-- A branch was taken to a label further on. -/
  | seeking (label : SwitchLabel)
  /-- A computed branch selects an instruction further on. -/
  | indexing (index : Nat)
  deriving DecidableEq, Repr

/-- The index that a computed branch uses. -/
def cbraIndex (format : IntFormat) (value : BitVec 64) (subtrahend : Option (BitVec 64)) :
    Nat :=
  match subtrahend with
  | some minimum => (format.read value - format.read minimum).toNat
  | none => (format.read value).toNat

/-- Execution of dispatch code for a value of the controlling expression. -/
def executeDispatch (format : IntFormat) (value : BitVec 64) :
    List SwitchInstruction → DispatchState → SwitchOutcome
  | [], .running => .fallsThrough
  | [], .seeking label => .reaches label
  | [], .indexing _ => .outsideTable
  | instruction :: rest, .seeking label =>
    executeDispatch format value rest
      (if instruction = .label label then .running else .seeking label)
  | .jumpTableBranch target :: rest, .indexing 0 =>
    executeDispatch format value rest (.seeking target)
  | .jumpTableBranch _ :: rest, .indexing (index + 1) =>
    executeDispatch format value rest (.indexing index)
  | _ :: _, .indexing _ => .outsideTable
  | .compareBranch comparison constant target :: rest, .running =>
    executeDispatch format value rest
      (if comparison.integerValue format format value constant = some 1 then
        .seeking target else .running)
  | .bra target :: rest, .running => executeDispatch format value rest (.seeking target)
  | .jumpTableBranch target :: rest, .running =>
    executeDispatch format value rest (.seeking target)
  | .label _ :: rest, .running => executeDispatch format value rest .running
  | .cbra subtrahend :: rest, .running =>
    executeDispatch format value rest (.indexing (cbraIndex format value subtrahend))

/-- Where a switch passes control. Without a body the end of the dispatch code is
the end of the statement. -/
def SwitchCode.execute [Compiler] (code : SwitchCode) (value : BitVec 64) :
    SwitchOutcome :=
  match executeDispatch (wordFormat (some code.exprType)) value code.dispatch .running with
  | .fallsThrough => if code.generatesBody then .fallsThrough else .reaches .breakLabel
  | outcome => outcome

/-- The default label if there is one, else the break label. -/
def switchDefaultLabel (node : SwitchNode) : SwitchLabel :=
  match node.defaultNode with
  | some default => .defaultLabel default
  | none => .breakLabel

/-- The branches of a jump table from a value on, with the gaps filled. -/
def jumpTable (gap : SwitchLabel) (nextValue : BitVec 64) : List CaseLabel → List SwitchLabel
  | [] => []
  | label :: rest =>
    List.replicate (label.value - nextValue).toNat gap ++
      .caseLabel label.node :: jumpTable gap (label.value + 1) rest

/-- The type keeps its bits and becomes unsigned. -/
def TypeRecord.asUnsigned (type : TypeRecord) : TypeRecord :=
  { type with type := type.type ||| kTypeUnsigned }

/-- The dense form compares as unsigned, after a test for a negative value. -/
def comparesUnsigned [Compiler] (node : SwitchNode) : Bool :=
  !node.allCasesCovered && node.exprType.isSigned && node.allCasesPositive

def generateDenseSwitch [Compiler] (node : SwitchNode) : SwitchCode :=
  let defaultLabel := switchDefaultLabel node
  let negativeTest :=
    if comparesUnsigned node then [.compareBranch .cmplti 0 defaultLabel] else []
  let rangeTests :=
    if node.allCasesCovered then []
    else
      negativeTest ++
        [.compareBranch .cmplti node.minCaseValue defaultLabel,
          .compareBranch .cmpgti node.maxCaseValue defaultLabel]
  { -- Setting the type of the expression's node affects every comparison of it.
    exprType := if comparesUnsigned node then node.exprType.asUnsigned else node.exprType
    dispatch :=
      rangeTests ++
        .cbra (if node.minCaseValue = 0 then none else some node.minCaseValue) ::
          (jumpTable defaultLabel node.minCaseValue node.cases).map .jumpTableBranch
    generatesBody := true }

/-- `GenerateBinaryCaseSearch` over the cases from `start` on: more than 15 of them
are split into halves. -/
def generateBinaryCaseSearch (node : SwitchNode) (start : Nat) (cases : List CaseLabel) :
    List SwitchInstruction :=
  if long : 15 < cases.length then
    let middle := cases.length / 2
    let middleCase := cases.get ⟨cases.length / 2, by omega⟩
    let lowerHalf := SwitchLabel.lowerHalf start (start + cases.length)
    .compareBranch .cmplti middleCase.value lowerHalf ::
      (generateBinaryCaseSearch node (start + middle) (cases.drop middle) ++
        .label lowerHalf :: generateBinaryCaseSearch node start (cases.take middle))
  else
    cases.map (fun label => .compareBranch .cmpeqi label.value (.caseLabel label.node)) ++
      if node.allCasesCovered then [] else [.bra (switchDefaultLabel node)]
termination_by cases.length
decreasing_by
  · simp only [List.length_drop]
    omega
  · simp only [List.length_take]
    omega

def generateSparseSwitch (node : SwitchNode) : SwitchCode :=
  { exprType := node.exprType
    dispatch := generateBinaryCaseSearch node 0 node.cases
    generatesBody := true }

/-- `GenerateConstantSwitch`. Without a case and a default nothing is generated. -/
def generateConstantSwitch (node : SwitchNode) (value : BitVec 64) : SwitchCode :=
  let branchTo (target : SwitchLabel) : SwitchCode :=
    { exprType := node.exprType, dispatch := [.bra target], generatesBody := true }
  match node.cases.find? fun label => label.value == value with
  | some found => branchTo (.caseLabel found.node)
  | none =>
    match node.defaultNode with
    | some default => branchTo (.defaultLabel default)
    | none => { exprType := node.exprType, dispatch := [], generatesBody := false }

/-- The choices of the compilation that the form of a switch depends on. -/
structure SwitchOptions where
  optLevel1 : Bool
  /-- The target can index a table of branches: every one but `wasm32`. -/
  targetHasJumpTable : Bool
  deriving DecidableEq, Repr

/-- The number of cases from which a table is worth its tests. -/
def minDenseCases [Compiler] (node : SwitchNode) : Nat :=
  if node.allCasesCovered then 4
  else if node.exprType.isSigned && node.allCasesPositive then 7
  else 6

/-- The dense form is chosen. -/
def choosesDense [Compiler] (options : SwitchOptions) (node : SwitchNode) : Bool :=
  options.targetHasJumpTable && minDenseCases node < node.cases.length && 0.5 < node.density

def generateSwitchStatement [Compiler] (options : SwitchOptions) (node : SwitchNode) :
    SwitchCode :=
  match node.constant with
  | some value =>
    if options.optLevel1 then generateConstantSwitch node value
    else if choosesDense options node then generateDenseSwitch node
    else generateSparseSwitch node
  | none =>
    if choosesDense options node then generateDenseSwitch node
    else generateSparseSwitch node

end DaveCC.Backend
