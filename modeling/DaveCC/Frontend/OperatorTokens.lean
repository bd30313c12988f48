import DaveCC.Container.LongestPrefix

/-!
# Operator tokens

`CollectOperator` of `lex.c`, which reads an operator at the position of the lexer, and
`LexConsumeClosingAngle`, which takes one `>` off a token. A line ends with a NUL, which
reading behind its end gives. Of the tokens only the operators are here.
-/

namespace DaveCC.Frontend.Operators

open Container

inductive LanguageStandard where
  | c89 | c99 | c11 | c17 | c23
  | cxx98 | cxx03 | cxx11 | cxx14 | cxx17 | cxx20 | cxx23 | cxx26 | cxx29
  deriving DecidableEq, Repr

namespace LanguageStandard

/-- `CompilerIsCXX`. -/
def isCXX (standard : LanguageStandard) : Bool := cxx98.ctorIdx ≤ standard.ctorIdx

/-- `CompilerCXXAtLeast`. -/
def cxxAtLeast (standard least : LanguageStandard) : Bool :=
  standard.isCXX && least.ctorIdx ≤ standard.ctorIdx

end LanguageStandard

/-- The operators of `Token`, and `TOK(bad)`. -/
inductive Token where
  | bad
  | amp | ampeq | arrow | arrowstar | equal | bang | bar | caret | careteq | reflect | colon
  | coloncolon | spliceClose | comma | dot | dotstar | ellipsis | equalequal | greater | greatereq
  | spaceship | lbrace | less | lesseq | ampamp | barbar | lparen | lessless | lesslesseq | lsquare
  | spliceOpen | minus | minuseq | minusminus | bangeq | bareq | percent | percenteq | plus | pluseq
  | plusplus | question | rbrace | rparen | greatergreater | greatergreatereq | rsquare | semicolon
  | slash | slasheq | star | stareq | tilde | backslash | hash
  deriving DecidableEq, Repr

/-- The members of `Lex` that have to do with operators. -/
structure Lex where
  line : List Char
  pos : ℕ := 0
  currentToken : Token := .bad
  currentGreatereqIsSplit : Bool := false
  assemblerMode : Bool := false
  deriving DecidableEq, Repr

namespace Lex

/-- The NUL behind a line. -/
abbrev nul : Char := Char.ofNat 0

variable (lex : Lex)

/-- What has not been read of the line. -/
def rest : List Char := lex.line.drop lex.pos

/-- The character at an offset from the position. -/
def peek (offset : ℕ) : Char := lex.rest.getD offset nul

/-- A token is found, of a number of characters. -/
def found (token : Token) (length : ℕ) : Lex :=
  { lex with currentToken := token, pos := lex.pos + length }

def collectOperator (standard : LanguageStandard) : Lex :=
  match lex.peek 0 with
  | '+' =>
    if lex.peek 1 = '=' then lex.found .pluseq 2
    else if lex.peek 1 = '+' then lex.found .plusplus 2
    else lex.found .plus 1
  | '-' =>
    if lex.peek 1 = '=' then lex.found .minuseq 2
    else if lex.peek 1 = '-' then lex.found .minusminus 2
    else if lex.peek 1 = '>' then
      if standard.isCXX ∧ lex.peek 2 = '*' then lex.found .arrowstar 3 else lex.found .arrow 2
    else lex.found .minus 1
  | '*' => if lex.peek 1 = '=' then lex.found .stareq 2 else lex.found .star 1
  | '/' => if lex.peek 1 = '=' then lex.found .slasheq 2 else lex.found .slash 1
  | '(' => lex.found .lparen 1
  | ')' => lex.found .rparen 1
  | '[' =>
    if standard.cxxAtLeast .cxx26 ∧ lex.peek 1 = ':' then lex.found .spliceOpen 2
    else lex.found .lsquare 1
  | ']' => lex.found .rsquare 1
  | '{' => lex.found .lbrace 1
  | '}' => lex.found .rbrace 1
  | '=' => if lex.peek 1 = '=' then lex.found .equalequal 2 else lex.found .equal 1
  | '>' =>
    if lex.peek 1 = '=' then lex.found .greatereq 2
    else if lex.peek 1 = '>' then
      if lex.peek 2 = '=' then lex.found .greatergreatereq 3 else lex.found .greatergreater 2
    else lex.found .greater 1
  | '<' =>
    if standard.isCXX ∧ lex.peek 1 = '=' ∧ lex.peek 2 = '>' then lex.found .spaceship 3
    else if lex.peek 1 = '=' then lex.found .lesseq 2
    else if lex.peek 1 = '<' then
      if lex.peek 2 = '=' then lex.found .lesslesseq 3 else lex.found .lessless 2
    else if lex.peek 1 = '%' then lex.found .lbrace 2
    else if lex.peek 1 = ':' then
      -- The digraph of `[`, unless it is `<` before `::`.
      if standard.cxxAtLeast .cxx11 ∧ lex.peek 1 = ':' ∧ lex.peek 2 = ':' ∧
          lex.peek 3 ≠ ':' ∧ lex.peek 3 ≠ '>' then lex.found .less 1
      else lex.found .lsquare 2
    else lex.found .less 1
  | '%' =>
    if lex.peek 1 = '=' then lex.found .percenteq 2
    else if lex.peek 1 = '>' then lex.found .rbrace 2
    else if lex.peek 1 = ':' then
      if lex.peek 2 = '%' ∧ lex.peek 3 = ':' then lex.found .hash 4 else lex.found .hash 2
    else lex.found .percent 1
  | '&' =>
    if lex.peek 1 = '=' then lex.found .ampeq 2
    else if lex.peek 1 = '&' then lex.found .ampamp 2
    else lex.found .amp 1
  | '!' => if lex.peek 1 = '=' then lex.found .bangeq 2 else lex.found .bang 1
  | '^' =>
    if standard.cxxAtLeast .cxx26 ∧ lex.peek 1 = '^' then lex.found .reflect 2
    else if lex.peek 1 = '=' then lex.found .careteq 2
    else lex.found .caret 1
  | '|' =>
    if lex.peek 1 = '=' then lex.found .bareq 2
    else if lex.peek 1 = '|' then lex.found .barbar 2
    else lex.found .bar 1
  | ',' => lex.found .comma 1
  | '.' =>
    if lex.peek 1 = '.' ∧ lex.peek 2 = '.' then lex.found .ellipsis 3
    else if standard.isCXX ∧ lex.peek 1 = '*' then lex.found .dotstar 2
    else lex.found .dot 1
  | '?' => lex.found .question 1
  | ':' =>
    if lex.peek 1 = '>' then lex.found .rsquare 2
    else if standard.cxxAtLeast .cxx26 ∧ lex.peek 1 = ']' then lex.found .spliceClose 2
    else if standard.isCXX ∧ lex.peek 1 = ':' then lex.found .coloncolon 2
    else lex.found .colon 1
  | ';' => lex.found .semicolon 1
  | '~' => lex.found .tilde 1
  | '\\' => lex.found .backslash 1
  | '#' => if lex.assemblerMode then lex.found .hash 1 else lex
  | _ => lex

/-- `LexConsumeClosingAngle`, with `LexNextToken`. -/
def consumeClosingAngle (lexNextToken : Lex → Lex) : Bool × Lex :=
  match lex.currentToken with
  | .greater => (true, lexNextToken lex)
  | .greatergreater => (true, { lex with currentToken := .greater })
  | .greatergreatereq =>
    (true, { lex with currentToken := .greatereq, currentGreatereqIsSplit := true })
  | .greatereq =>
    if !lex.currentGreatereqIsSplit then (false, lex)
    else (true, { lex with currentToken := .equal, currentGreatereqIsSplit := false })
  | _ => (false, lex)

end Lex

/-- The operators of a language that begin with a character, by what follows it, longer
ones first. The digraphs are there too. `##` is not, and its digraph is a `#`. C23 has the
`::` of attributes. -/
def operators (standard : LanguageStandard) (assemblerMode : Bool) :
    Char → List (List Char × Token)
  | '+' => [(['='], .pluseq), (['+'], .plusplus), ([], .plus)]
  | '-' =>
    (if standard.isCXX then [(['>', '*'], .arrowstar)] else []) ++
      [(['='], .minuseq), (['-'], .minusminus), (['>'], .arrow), ([], .minus)]
  | '*' => [(['='], .stareq), ([], .star)]
  | '/' => [(['='], .slasheq), ([], .slash)]
  | '(' => [([], .lparen)]
  | ')' => [([], .rparen)]
  | '[' =>
    (if standard.cxxAtLeast .cxx26 then [([':'], .spliceOpen)] else []) ++ [([], .lsquare)]
  | ']' => [([], .rsquare)]
  | '{' => [([], .lbrace)]
  | '}' => [([], .rbrace)]
  | '=' => [(['='], .equalequal), ([], .equal)]
  | '>' =>
    [(['>', '='], .greatergreatereq), (['='], .greatereq), (['>'], .greatergreater), ([], .greater)]
  | '<' =>
    (if standard.isCXX then [(['=', '>'], .spaceship)] else []) ++
      [(['<', '='], .lesslesseq), (['='], .lesseq), (['<'], .lessless), (['%'], .lbrace),
        ([':'], .lsquare), ([], .less)]
  | '%' =>
    [([':', '%', ':'], .hash), (['='], .percenteq), (['>'], .rbrace), ([':'], .hash),
      ([], .percent)]
  | '&' => [(['='], .ampeq), (['&'], .ampamp), ([], .amp)]
  | '!' => [(['='], .bangeq), ([], .bang)]
  | '^' =>
    (if standard.cxxAtLeast .cxx26 then [(['^'], .reflect)] else []) ++
      [(['='], .careteq), ([], .caret)]
  | '|' => [(['='], .bareq), (['|'], .barbar), ([], .bar)]
  | ',' => [([], .comma)]
  | '.' =>
    [(['.', '.'], .ellipsis)] ++ (if standard.isCXX then [(['*'], .dotstar)] else []) ++
      [([], .dot)]
  | '?' => [([], .question)]
  | ':' =>
    [(['>'], .rsquare)] ++ (if standard.cxxAtLeast .cxx26 then [([']'], .spliceClose)] else []) ++
      (if standard.isCXX ∨ standard = .c23 then [([':'], .coloncolon)] else []) ++ [([], .colon)]
  | ';' => [([], .semicolon)]
  | '~' => [([], .tilde)]
  | '\\' => [([], .backslash)]
  | '#' => if assemblerMode then [([], .hash)] else []
  | _ => []

/-- A word is an operator of a language. -/
def IsOperator (standard : LanguageStandard) (assemblerMode : Bool) (word : List Char)
    (token : Token) : Prop :=
  ∃ first more, word = first :: more ∧ (more, token) ∈ operators standard assemblerMode first

/-- A word is the longest operator of a language that the rest of the line begins with. -/
structure LongestOperator (standard : LanguageStandard) (lex : Lex) (word : List Char)
    (token : Token) : Prop where
  isOperator : IsOperator standard lex.assemblerMode word token
  isPrefix : word <+: lex.rest
  longest : ∀ other otherToken, IsOperator standard lex.assemblerMode other otherToken →
    other <+: lex.rest → other.length ≤ word.length

/-- `<` is an operator of its own before `::`, unless a `:` or a `>` follows. -/
def LessThenScope (standard : LanguageStandard) (lex : Lex) : Prop :=
  standard.cxxAtLeast .cxx11 ∧ ['<', ':', ':'] <+: lex.rest ∧ lex.peek 3 ≠ ':' ∧ lex.peek 3 ≠ '>'

end DaveCC.Frontend.Operators

/-!
## Operators are lexed by maximal munch

`CollectOperator` takes the longest operator of the language that the rest of the line
begins with, but for the `<` before a `::`. What is left of a token that is split is the
token that its remaining characters spell.
-/

namespace DaveCC.Frontend.Operators

open Container

namespace Lex

variable {lex : Lex} {standard : LanguageStandard}

theorem getD_drop (text : List Char) (count offset : ℕ) :
    (text.drop count).getD offset nul = text.getD (count + offset) nul := by
  rw [List.getD_eq_getElem?_getD, List.getElem?_drop, List.getD_eq_getElem?_getD]

/-- The rest of a line after its first character begins with a word. -/
theorem cons_prefix_drop_iff {char : Char} (word : List Char) (differs : char ≠ nul) (count : ℕ) :
    char :: word <+: lex.rest.drop count ↔ lex.peek count = char ∧ word <+: lex.rest.drop (count + 1) := by
  rw [cons_prefix_iff word differs, getD_drop, List.drop_drop]
  rfl

/-- Take the first entry of a table that what follows the first character begins with. -/
def searchIn (lex : Lex) (table : List (List Char × Token)) : Lex :=
  match firstPrefix table (lex.rest.drop 1) with
  | none => lex
  | some (word, token) => lex.found token (word.length + 1)

@[simp] theorem searchIn_nil : lex.searchIn [] = lex := rfl

@[simp] theorem searchIn_cons (word : List Char) (token : Token)
    (table : List (List Char × Token)) :
    lex.searchIn ((word, token) :: table) =
      if word <+: lex.rest.drop 1 then lex.found token (word.length + 1)
      else lex.searchIn table := by
  by_cases begins : word <+: lex.rest.drop 1 <;> simp only [searchIn, firstPrefix, begins, if_true,
    if_false]

/-! ## Each first character -/

section Characters

attribute [local simp] collectOperator operators

/-- The rest of a line begins with two characters. -/
theorem pair_prefix_iff {char other : Char} (differs : char ≠ nul) (otherDiffers : other ≠ nul) :
    [char, other] <+: lex.rest ↔ lex.peek 0 = char ∧ lex.peek 1 = other := by
  have reads := @cons_prefix_drop_iff lex char [other] differs 0
  rw [List.drop_zero, cons_prefix_drop_iff _ otherDiffers] at reads
  simpa using reads

theorem collectOperator_colon (first : lex.peek 0 = ':')
    (notC23Scope : ¬ (standard = .c23 ∧ [':', ':'] <+: lex.rest)) :
    lex.collectOperator standard = lex.searchIn (operators standard lex.assemblerMode ':') := by
  rw [pair_prefix_iff (by decide) (by decide)] at notC23Scope
  by_cases isC23 : standard = .c23
  · have notScope : lex.peek 1 ≠ ':' := fun second => notC23Scope ⟨isC23, first, second⟩
    subst isC23
    have notCXX : LanguageStandard.c23.isCXX = false := rfl
    have not26 : LanguageStandard.c23.cxxAtLeast .cxx26 = false := rfl
    simp (disch := decide) [first, cons_prefix_drop_iff, notScope, notCXX, not26, -List.drop_one]
  · cases isCXX : standard.isCXX <;> cases is26 : standard.cxxAtLeast .cxx26 <;>
      simp (disch := decide) [first, cons_prefix_drop_iff, isCXX, is26, isC23, -List.drop_one]

theorem scope_prefix_iff (lex : Lex) :
    ['<', ':', ':'] <+: lex.rest ↔ lex.peek 0 = '<' ∧ lex.peek 1 = ':' ∧ lex.peek 2 = ':' := by
  have reads := @cons_prefix_drop_iff lex '<' [':', ':'] (by decide) 0
  rw [List.drop_zero, cons_prefix_drop_iff _ (by decide), cons_prefix_drop_iff _ (by decide)] at reads
  simpa using reads

theorem collectOperator_less (first : lex.peek 0 = '<') (notScope : ¬ LessThenScope standard lex) :
    lex.collectOperator standard = lex.searchIn (operators standard lex.assemblerMode '<') := by
  rw [LessThenScope, scope_prefix_iff] at notScope
  cases isCXX : standard.isCXX <;>
    simp (disch := decide) [first, cons_prefix_drop_iff, isCXX, -List.drop_one]
  all_goals grind

theorem collectOperator_eq (standard : LanguageStandard) (lex : Lex)
    (notC23Scope : ¬ (standard = .c23 ∧ [':', ':'] <+: lex.rest))
    (notScope : ¬ LessThenScope standard lex) :
    lex.collectOperator standard =
      lex.searchIn (operators standard lex.assemblerMode (lex.peek 0)) := by
  rcases Decidable.em (lex.peek 0 ∈ ['-', '>', '%', '.', ':', '[', '^', '#', '<']) with
    special | plain
  · simp only [List.mem_cons, List.not_mem_nil, or_false] at special
    rcases special with first | first | first | first | first | first | first | first | first <;>
      rw [first]
    · cases isCXX : standard.isCXX <;>
        simp (disch := decide) [first, cons_prefix_drop_iff, isCXX, -List.drop_one]
      grind
    · simp (disch := decide) [first, cons_prefix_drop_iff, -List.drop_one]
      grind
    · simp (disch := decide) [first, cons_prefix_drop_iff, -List.drop_one]
      grind
    · cases isCXX : standard.isCXX <;>
        simp (disch := decide) [first, cons_prefix_drop_iff, isCXX, -List.drop_one]
    · exact collectOperator_colon first notC23Scope
    · cases is26 : standard.cxxAtLeast .cxx26 <;>
        simp (disch := decide) [first, cons_prefix_drop_iff, is26, -List.drop_one]
    · cases is26 : standard.cxxAtLeast .cxx26 <;>
        simp (disch := decide) [first, cons_prefix_drop_iff, is26, -List.drop_one]
    · cases assembler : lex.assemblerMode <;>
        simp [first, assembler]
    · exact collectOperator_less first notScope
  · -- The other branches are the searches as they stand.
    simp only [List.mem_cons, List.not_mem_nil, or_false, not_or] at plain
    unfold collectOperator
    split <;> rename_i first
    case h_27 =>
      have nothing : operators standard lex.assemblerMode (lex.peek 0) = [] := by
        unfold operators
        split <;> simp_all
      rw [nothing, searchIn_nil]
    all_goals
      first
      | exact absurd first (by simp [plain])
      | simp (disch := decide) [first, operators, cons_prefix_drop_iff, -List.drop_one]

end Characters

theorem longestFirst_operators (standard : LanguageStandard) (assemblerMode : Bool)
    (first : Char) : LongestFirst (operators standard assemblerMode first) := by
  unfold operators
  split <;> try decide
  all_goals split_ifs <;> decide

/-- The longest operator is collected, or there is none. -/
theorem collectOperator_spec (standard : LanguageStandard) (lex : Lex)
    (notC23Scope : ¬ (standard = .c23 ∧ [':', ':'] <+: lex.rest))
    (notScope : ¬ LessThenScope standard lex) :
    (∃ word token, LongestOperator standard lex word token ∧
      lex.collectOperator standard = lex.found token word.length) ∨
    ((∀ word token, IsOperator standard lex.assemblerMode word token → ¬ word <+: lex.rest) ∧
      lex.collectOperator standard = lex) := by
  rw [collectOperator_eq standard lex notC23Scope notScope, searchIn]
  cases text : lex.rest with
  | nil =>
    refine .inr ⟨?_, ?_⟩
    · rintro _ token ⟨first, more, rfl, -⟩ isPrefix
      cases List.prefix_nil.mp isPrefix
    · rw [peek, text]
      rfl
  | cons first more =>
    have isFirst : lex.peek 0 = first := by
      rw [peek, text]
      rfl
    rw [isFirst, List.drop_one, List.tail_cons]
    cases search : firstPrefix (operators standard lex.assemblerMode first) more with
    | none =>
      refine .inr ⟨?_, rfl⟩
      rintro _ token ⟨other, word, rfl, isEntry⟩ isPrefix
      obtain ⟨rfl, prefixMore⟩ := List.cons_prefix_cons.mp isPrefix
      exact not_prefix_of_first_none search _ isEntry prefixMore
    | some entry =>
      have ⟨mem, isPrefix, longest⟩ :=
        isLongestPrefix_of_first (longestFirst_operators standard lex.assemblerMode first) search
      refine .inl ⟨first :: entry.1, entry.2, ⟨⟨first, entry.1, rfl, mem⟩, ?_, ?_⟩, rfl⟩
      · rw [text]
        exact List.cons_prefix_cons.mpr ⟨rfl, isPrefix⟩
      · rintro _ token ⟨other, word, rfl, isEntry⟩ prefixOther
        rw [text] at prefixOther
        obtain ⟨rfl, prefixMore⟩ := List.cons_prefix_cons.mp prefixOther
        exact Nat.succ_le_succ (longest _ isEntry prefixMore)

/-- The lexer some characters further on. -/
def skip (lex : Lex) (count : ℕ) : Lex := { lex with pos := lex.pos + count }

theorem peek_skip (lex : Lex) (count offset : ℕ) :
    (lex.skip count).peek offset = lex.peek (count + offset) := by
  rw [peek, peek, rest, rest, getD_drop, getD_drop, skip, Nat.add_assoc]

theorem triple_prefix_iff {first second third : Char} (notFirst : first ≠ nul)
    (notSecond : second ≠ nul) (notThird : third ≠ nul) :
    [first, second, third] <+: lex.rest ↔
      lex.peek 0 = first ∧ lex.peek 1 = second ∧ lex.peek 2 = third := by
  have reads := @cons_prefix_drop_iff lex first [second, third] notFirst 0
  rw [List.drop_zero, cons_prefix_drop_iff _ notSecond, cons_prefix_drop_iff _ notThird] at reads
  simpa using reads

/-- `<` is collected before `::`, and then `::`. -/
theorem collectOperator_scope (scope : LessThenScope standard lex) :
    lex.collectOperator standard = lex.found .less 1 ∧
      (lex.found .less 1).collectOperator standard = (lex.found .less 1).found .coloncolon 2 := by
  obtain ⟨isCXX11, isPrefix, notColon, notGreater⟩ := scope
  obtain ⟨first, second, third⟩ := (scope_prefix_iff lex).mp isPrefix
  have isCXX : standard.isCXX = true := (Bool.and_eq_true_iff.mp isCXX11).1
  have next : ∀ offset, (lex.found .less 1).peek offset = lex.peek (1 + offset) :=
    lex.peek_skip 1
  constructor
  · simp [collectOperator, first, second, third, isCXX11, notColon, notGreater]
  · simp [collectOperator, next, second, third, isCXX]

theorem collectOperator_greater (first : lex.peek 0 = '>') :
    lex.collectOperator standard = if lex.peek 1 = '=' then lex.found .greatereq 2
      else if lex.peek 1 = '>' then
        if lex.peek 2 = '=' then lex.found .greatergreatereq 3 else lex.found .greatergreater 2
      else lex.found .greater 1 := by
  simp only [collectOperator, first]

/-- Splitting `>>` leaves what the second `>` is on its own. -/
theorem split_greatergreater (lexNextToken : Lex → Lex) (isPrefix : ['>', '>'] <+: lex.rest)
    (notEqual : ¬ ['>', '>', '='] <+: lex.rest) :
    (lex.collectOperator standard).consumeClosingAngle lexNextToken = (true, lex.found .greater 2) ∧
      (¬ ['>', '>', '>'] <+: lex.rest →
        lex.found .greater 2 = (lex.skip 1).collectOperator standard) := by
  obtain ⟨first, second⟩ := (pair_prefix_iff (by decide) (by decide)).mp isPrefix
  have third : lex.peek 2 ≠ '=' := fun third =>
    notEqual ((triple_prefix_iff (by decide) (by decide) (by decide)).mpr ⟨first, second, third⟩)
  constructor
  · have collected : lex.collectOperator standard = lex.found .greatergreater 2 := by
      simp [collectOperator_greater first, second, third]
    rw [collected]
    rfl
  · intro notGreater
    have notThird : lex.peek 2 ≠ '>' := fun third =>
      notGreater ((triple_prefix_iff (by decide) (by decide) (by decide)).mpr
        ⟨first, second, third⟩)
    have collected : (lex.skip 1).collectOperator standard = (lex.skip 1).found .greater 1 := by
      rw [collectOperator_greater ((lex.peek_skip 1 0).trans second)]
      simp [peek_skip, third, notThird]
    rw [collected]
    rfl

/-- Splitting `>>=` leaves what `>=` is on its own, and splitting this leaves `=`. -/
theorem split_greatergreatereq (lexNextToken : Lex → Lex)
    (isPrefix : ['>', '>', '='] <+: lex.rest) :
    let split : Lex := { lex.found .greatereq 3 with currentGreatereqIsSplit := true }
    let splitAgain : Lex := { lex.found .equal 3 with currentGreatereqIsSplit := false }
    (lex.collectOperator standard).consumeClosingAngle lexNextToken = (true, split) ∧
      split = { (lex.skip 1).collectOperator standard with currentGreatereqIsSplit := true } ∧
      split.consumeClosingAngle lexNextToken = (true, splitAgain) ∧
      (lex.peek 3 ≠ '=' → splitAgain =
        { (lex.skip 2).collectOperator standard with currentGreatereqIsSplit := false }) := by
  obtain ⟨first, second, third⟩ :=
    (triple_prefix_iff (by decide) (by decide) (by decide)).mp isPrefix
  refine ⟨?_, ?_, rfl, ?_⟩
  · have collected : lex.collectOperator standard = lex.found .greatergreatereq 3 := by
      simp [collectOperator_greater first, second, third]
    rw [collected]
    rfl
  · have collected : (lex.skip 1).collectOperator standard = (lex.skip 1).found .greatereq 2 := by
      rw [collectOperator_greater ((lex.peek_skip 1 0).trans second)]
      simp [peek_skip, third]
    rw [collected]
    rfl
  · intro notEqual
    have collected : (lex.skip 2).collectOperator standard = (lex.skip 2).found .equal 1 := by
      simp [collectOperator, peek_skip, third, notEqual]
    rw [collected]
    rfl

/-- A `>=` that was not split off is refused. -/
theorem consumeClosingAngle_greatereq (lexNextToken : Lex → Lex)
    (isPrefix : ['>', '='] <+: lex.rest) (unsplit : lex.currentGreatereqIsSplit = false) :
    (lex.collectOperator standard).consumeClosingAngle lexNextToken =
      (false, lex.collectOperator standard) := by
  obtain ⟨first, second⟩ := (pair_prefix_iff (by decide) (by decide)).mp isPrefix
  have collected : lex.collectOperator standard = lex.found .greatereq 2 := by
    simp [collectOperator_greater first, second]
  have unsplitFound : (lex.found .greatereq 2).currentGreatereqIsSplit = false := unsplit
  rw [collected, consumeClosingAngle]
  simp only [found, unsplitFound, Bool.not_false, if_true]
  simp [unsplit]

end Lex

open Lex in
/-- An operator is the longest one of the language, but for the `<` before `::`, and a token
is split into a `>` and what the rest of its characters spell. -/
theorem collectOperator_munches (standard : LanguageStandard) (lex : Lex)
    (lexNextToken : Lex → Lex) (notC23Scope : ¬ (standard = .c23 ∧ [':', ':'] <+: lex.rest)) :
    (LessThenScope standard lex →
      lex.collectOperator standard = lex.found .less 1 ∧
        (lex.found .less 1).collectOperator standard = (lex.found .less 1).found .coloncolon 2) ∧
    (¬ LessThenScope standard lex →
      (∃ word token, LongestOperator standard lex word token ∧
        lex.collectOperator standard = lex.found token word.length) ∨
      ((∀ word token, IsOperator standard lex.assemblerMode word token → ¬ word <+: lex.rest) ∧
        lex.collectOperator standard = lex)) ∧
    (['>', '>'] <+: lex.rest → ¬ ['>', '>', '='] <+: lex.rest →
      (lex.collectOperator standard).consumeClosingAngle lexNextToken =
          (true, lex.found .greater 2) ∧
        (¬ ['>', '>', '>'] <+: lex.rest →
          lex.found .greater 2 = (lex.skip 1).collectOperator standard)) ∧
    (['>', '>', '='] <+: lex.rest →
      let split : Lex := { lex.found .greatereq 3 with currentGreatereqIsSplit := true }
      let splitAgain : Lex := { lex.found .equal 3 with currentGreatereqIsSplit := false }
      (lex.collectOperator standard).consumeClosingAngle lexNextToken = (true, split) ∧
        split = { (lex.skip 1).collectOperator standard with currentGreatereqIsSplit := true } ∧
        split.consumeClosingAngle lexNextToken = (true, splitAgain) ∧
        (lex.peek 3 ≠ '=' → splitAgain =
          { (lex.skip 2).collectOperator standard with currentGreatereqIsSplit := false })) ∧
    (['>', '='] <+: lex.rest → lex.currentGreatereqIsSplit = false →
      (lex.collectOperator standard).consumeClosingAngle lexNextToken =
        (false, lex.collectOperator standard)) :=
  ⟨collectOperator_scope, collectOperator_spec standard lex notC23Scope,
    split_greatergreater lexNextToken, split_greatergreatereq lexNextToken,
    consumeClosingAngle_greatereq lexNextToken⟩

/-- In `<::x` the lexer takes `<` and then `::`. -/
theorem collectOperator_munches_scope :
    let lex : Lex := { line := ['<', ':', ':', 'x'] }
    lex.collectOperator .cxx20 = lex.found .less 1 ∧
      (lex.found .less 1).collectOperator .cxx20 = (lex.found .less 1).found .coloncolon 2 :=
  (collectOperator_munches .cxx20 { line := ['<', ':', ':', 'x'] } id (by decide)).1
    ⟨rfl, by decide, by decide, by decide⟩

/-- `##` is not collected, its digraph is a `#`, a `>=` does not close an angle, and after a
`>` has been taken off `>>>` the lexer is not where it would be after lexing a `>`. -/
theorem operators_not_munched :
    let lexOf (line : List Char) : Lex := { line := line }
    (lexOf ['#', '#']).collectOperator .c17 = lexOf ['#', '#'] ∧
    ((lexOf ['%', ':', '%', ':']).collectOperator .cxx20).currentToken = .hash ∧
    (((lexOf ['>', '=']).collectOperator .cxx20).consumeClosingAngle id).1 = false ∧
    (((lexOf ['>', '>', '>']).collectOperator .cxx20).consumeClosingAngle id).2 ≠
      ((lexOf ['>', '>', '>']).skip 1).collectOperator .cxx20 := by
  decide

end DaveCC.Frontend.Operators
