import Mathlib.Data.List.Basic

/-!
# Conditional directives

The part of `preprocessor.c` that decides which lines are compiled in: a stack of
flags, the handlers of the conditional directives, and the dispatch on a directive's
name. What conditions are worth, and what everything else does, belongs to the world
around it.
-/

namespace DaveCC.Frontend

/-- An entry of `if_stack`: `NULL`, `-1` or the address of a flag. -/
inductive IfEntry where
  | null | minusOne | flag
  deriving DecidableEq, Repr

/-- The commands of `preprocessor_commands` that change the stack. -/
inductive ConditionalCommand where
  | «if» | ifdef | ifndef | «elif» | elifdef | elifndef | «else» | «endif»
  deriving DecidableEq, Repr

inductive OtherCommand where
  | define | «include» | embed | line | error | pragma | undef | warning | includeNext
  deriving DecidableEq, Repr

def preprocessorCommands : List (String × (ConditionalCommand ⊕ OtherCommand)) :=
  [("define", .inr .define), ("include", .inr .include), ("embed", .inr .embed),
    ("if", .inl .if), ("ifdef", .inl .ifdef), ("ifndef", .inl .ifndef),
    ("endif", .inl .endif), ("elif", .inl .elif), ("elifdef", .inl .elifdef),
    ("elifndef", .inl .elifndef), ("else", .inl .else), ("line", .inr .line),
    ("error", .inr .error), ("pragma", .inr .pragma), ("undef", .inr .undef),
    ("warning", .inr .warning), ("include_next", .inr .includeNext)]

def findCommand (name : List Char) : Option (ConditionalCommand ⊕ OtherCommand) :=
  (preprocessorCommands.find? fun entry => entry.1.toList == name).map Prod.snd

/-- What surrounds the conditional directives: the macros and the diagnostics are part
of a state of the world, and each function is given the rest of its line. -/
structure Surroundings (World : Type) where
  /-- `EvaluateExpression`. -/
  evaluateExpression : List Char → World → Bool × World
  /-- `ReadIdentifier`: the macro name. -/
  readMacroName : List Char → String
  /-- `PreprocessorMacroNameIsDefined`. -/
  macroNameIsDefined : String → World → Bool
  /-- Whether anything but spaces and comments follows the macro name, or the command. -/
  extraAfterName : List Char → Bool
  extraAfterCommand : List Char → Bool
  preprocessorError : String → World → World
  preprocessorWarning : String → World → World
  /-- `LanguageSupportsElifdef`. -/
  supportsElifdef : Bool
  /-- The handlers of the other commands, given `is_compiled_in`. -/
  runOther : OtherCommand → List Char → Bool → World → World
  /-- What becomes of a line that is no directive, given `is_compiled_in`. -/
  readText : List Char → Bool → World → World

/-- A directive that tests a macro complains when it names none. -/
def Surroundings.expectMacroName {World : Type} (around : Surroundings World) (command : String)
    (rest : List Char) (world : World) : World :=
  if around.readMacroName rest = "" then
    around.preprocessorError ("Expected macro name after #" ++ command) world
  else world

/-- The preprocessor, with the top of the stack first, and whether the last directive
had its condition evaluated. -/
structure Preprocessor (World : Type) where
  ifStack : List IfEntry := []
  isCompiledIn : Bool := true
  evaluated : Bool := false
  world : World

namespace Preprocessor

variable {World : Type} (around : Surroundings World)

def updateState (p : Preprocessor World) : Preprocessor World :=
  { p with isCompiledIn := p.ifStack.all fun entry => entry != .null && entry != .minusOne }

def error (text : String) (p : Preprocessor World) : Preprocessor World :=
  { p with world := around.preprocessorError text p.world }

def warnIf (condition : Bool) (text : String) (p : Preprocessor World) : Preprocessor World :=
  if condition then { p with world := around.preprocessorWarning text p.world } else p

def setTop (entry : IfEntry) (p : Preprocessor World) : Preprocessor World :=
  { p with ifStack := entry :: p.ifStack.tail }

def push (entry : IfEntry) (p : Preprocessor World) : Preprocessor World :=
  { p with ifStack := entry :: p.ifStack }

/-- The entry for a condition. -/
def entryOf (value : Bool) : IfEntry :=
  if value then .flag else .null

/-- `EvaluateExpression` on the rest of a line. -/
def evaluate (rest : List Char) (p : Preprocessor World) : Bool × Preprocessor World :=
  let (value, world) := around.evaluateExpression rest p.world
  (value, { p with isCompiledIn := true, evaluated := true, world := world })

/-- Whether the macro named on the rest of a line is defined. -/
def testMacro (command : String) (rest : List Char) (p : Preprocessor World) :
    Bool × Preprocessor World :=
  let world := around.expectMacroName command rest p.world
  (around.macroNameIsDefined (around.readMacroName rest) world,
    { p with evaluated := true, world := world })

/-- `If`. -/
def runIf (rest : List Char) (p : Preprocessor World) : Preprocessor World :=
  if !p.isCompiledIn then p.push .null
  else
    let (value, p) := p.evaluate around rest
    (p.push (entryOf value)).updateState

def runEndif (rest : List Char) (p : Preprocessor World) : Preprocessor World :=
  match p.ifStack with
  | [] => p.error around "Extraneous #endif"
  | _ :: stack =>
    let p := { p with ifStack := stack }
    (p.warnIf around (around.extraAfterCommand rest) "Extra tokens after #endif").updateState

def runIfndef (rest : List Char) (p : Preprocessor World) : Preprocessor World :=
  let (defined, p) := p.testMacro around "ifndef" rest
  let p := p.push (entryOf !defined)
  (p.warnIf around (around.extraAfterName rest) "Extra tokens after #ifndef").updateState

def runIfdef (rest : List Char) (p : Preprocessor World) : Preprocessor World :=
  let (defined, p) := p.testMacro around "ifdef" rest
  let p := p.push (entryOf defined)
  (p.warnIf around (around.extraAfterName rest) "Extra tokens after #ifdef").updateState

def runElif (rest : List Char) (p : Preprocessor World) : Preprocessor World :=
  match p.ifStack with
  | [] => p.error around "#elif outside #if..#endif"
  | .minusOne :: _ => p
  | .flag :: _ => (p.setTop .minusOne).updateState
  | .null :: _ =>
    let (value, p) := p.evaluate around rest
    (p.setTop (entryOf value)).updateState

def elifMacroTest (requireDefined : Bool) (directive : String) (rest : List Char)
    (p : Preprocessor World) : Preprocessor World :=
  if !around.supportsElifdef then
    p.error around ("Invalid preprocessor directive " ++ directive)
  else
    match p.ifStack with
    | [] => p.error around ("#" ++ directive ++ " outside #if..#endif")
    | .minusOne :: _ => p
    | .flag :: _ => (p.setTop .minusOne).updateState
    | .null :: _ =>
      let (defined, p) := p.testMacro around directive rest
      let p := p.setTop (entryOf (if requireDefined then defined else !defined))
      (p.warnIf around (around.extraAfterName rest)
        ("Extra tokens after #" ++ directive)).updateState

def runElifdef (rest : List Char) (p : Preprocessor World) : Preprocessor World :=
  p.elifMacroTest around true "elifdef" rest

def runElifndef (rest : List Char) (p : Preprocessor World) : Preprocessor World :=
  p.elifMacroTest around false "elifndef" rest

def runElse (rest : List Char) (p : Preprocessor World) : Preprocessor World :=
  match p.ifStack with
  | [] => p.error around "#else outside #if..#endif"
  | top :: _ =>
    let p := p.setTop (if top = .null then .flag else .null)
    (p.warnIf around (around.extraAfterCommand rest) "Extra tokens after #else").updateState

def runConditional (command : ConditionalCommand) (rest : List Char) (p : Preprocessor World) :
    Preprocessor World :=
  match command with
  | .if => p.runIf around rest
  | .ifdef => p.runIfdef around rest
  | .ifndef => p.runIfndef around rest
  | .elif => p.runElif around rest
  | .elifdef => p.runElifdef around rest
  | .elifndef => p.runElifndef around rest
  | .else => p.runElse around rest
  | .endif => p.runEndif around rest

end Preprocessor

/-- A line of source: text, or a directive by what follows its `#` and the spaces
there. -/
inductive SourceLine where
  | text (line : List Char)
  | directive (line : List Char)
  deriving DecidableEq, Repr

def isSpace (ch : Char) : Bool :=
  ch = ' ' || ('\t' ≤ ch && ch ≤ '\r')

/-- The command name as `PreprocessorParseDirective` reads it: it starts with a letter
and ends at white space. -/
def readCommandName (line : List Char) : List Char :=
  match line with
  | [] => []
  | first :: _ => if first.isAlpha then line.takeWhile fun ch => !isSpace ch else []

namespace Preprocessor

variable {World : Type} (around : Surroundings World)

/-- `PreprocessorParseDirective`, and the reading of the line when it is no directive. -/
def parseLine (line : SourceLine) (p : Preprocessor World) : Preprocessor World :=
  let p := { p with evaluated := false }
  match line with
  | .text text => { p with world := around.readText text p.isCompiledIn p.world }
  | .directive line =>
    let name := readCommandName line
    let rest := line.drop name.length
    match findCommand name with
    | none =>
      if p.isCompiledIn then
        p.error around ("Invalid preprocessor directive " ++ String.ofList name)
      else p
    | some (.inl command) => p.runConditional around command rest
    | some (.inr command) =>
      { p with world := around.runOther command rest p.isCompiledIn p.world }

end Preprocessor

end DaveCC.Frontend
