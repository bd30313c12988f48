import DaveCC.Container.EditScripts

/-!
# Typo suggestions

`TypoCorrectionFindVisibleName`: the visible names are compared with a misspelt one, and the
nearest is suggested if it is the only one. Names are the bytes before their NUL.
-/

namespace DaveCC.Frontend.Typos

open DaveCC.Container

abbrev Name := List UInt8

def literal (text : String) : Name := text.toList.map fun character => character.toNat.toUInt8

def kTypoMaxIdentifier : ℕ := 256

def maxEditDistance (typoLength : ℕ) : ℕ := (typoLength + 2) / 3

/-- The inner loop of `EditDistance`: the cells of a row after its first one. -/
def nextCells (letter : UInt8) : Name → List ℕ → ℕ → List ℕ
  | other :: rest, diagonal :: above :: prev, left =>
    let cost := if letter = other then 0 else 1
    let deletion := above + 1
    let insertion := left + 1
    let substitution := diagonal + cost
    let cell := if deletion < insertion then deletion else insertion
    let cell := if substitution < cell then substitution else cell
    cell :: nextCells letter rest (above :: prev) cell
  | _, _, _ => []

/-- The least cell of a row. -/
def rowMin (curr : List ℕ) (first : ℕ) : ℕ :=
  curr.foldl (fun least cell => if cell < least then cell else least) first

/-- The rows of `EditDistance` for the letters that are left, after row `i`. -/
def editRows (maxDist : ℕ) (b : Name) : Name → ℕ → List ℕ → ℕ
  | [], _, prev => prev.getLastD 0
  | letter :: rest, i, prev =>
    let curr := (i + 1) :: nextCells letter b prev (i + 1)
    if maxDist < rowMin curr (i + 1) then maxDist + 1
    else editRows maxDist b rest (i + 1) curr

def editDistance (a b : Name) (maxDist : ℕ) : ℕ :=
  let (a, b) := if b.length < a.length then (b, a) else (a, b)
  if maxDist < b.length - a.length ∨ kTypoMaxIdentifier < b.length then maxDist + 1
  else editRows maxDist b a 0 (List.range (b.length + 1))

/-- What is read of a `Symbol`. -/
structure Symbol where
  name : Name
  invented : Bool
  isTemp : Bool

structure TypoSearch where
  best : Option Name
  bestDist : ℕ
  ties : ℕ

def nameIsSuggestable (name : Name) : Bool :=
  name ≠ [] && !(literal "__invented__").isPrefixOf name && !(literal "operator").isPrefixOf name

def isReserved (name : Name) : Bool := (literal "__").isPrefixOf name

/-- `tolower` of the C locale. -/
def toLower (letter : UInt8) : UInt8 :=
  if 0x41 ≤ letter ∧ letter ≤ 0x5a then letter + 0x20 else letter

def strcasecmp (first second : Name) : Bool := first.map toLower == second.map toLower

/-- `ConsiderName` up to its ranking: the distance of a name that is a candidate. -/
def candidate? (typo name : Name) : Option ℕ :=
  let maxDist := maxEditDistance typo.length
  if maxDist = 0 ∨ !nameIsSuggestable name ∨ name = typo then none
  else if isReserved name ∧ !isReserved typo then none
  else if name.length = typo.length ∧ strcasecmp name typo then some 0
  else if typo.length + maxDist < name.length ∨ name.length + maxDist < typo.length then none
  else
    let dist := editDistance typo name maxDist
    if maxDist < dist then none else some dist

/-- The ranking of `ConsiderName`. -/
def TypoSearch.rank (search : TypoSearch) (name : Name) (dist : ℕ) : TypoSearch :=
  match search.best with
  | none => ⟨some name, dist, 1⟩
  | some best =>
    if dist < search.bestDist then ⟨some name, dist, 1⟩
    else if dist = search.bestDist ∧ name ≠ best then { search with ties := search.ties + 1 }
    else search

def considerSymbol (typo : Name) (search : TypoSearch) (symbol : Symbol) : TypoSearch :=
  if symbol.invented || symbol.isTemp then search
  else
    match candidate? typo symbol.name with
    | none => search
    | some dist => search.rank symbol.name dist

/-- `TypoCorrectionFindVisibleName` for the symbols that it visits. -/
def typoCorrectionFindVisibleName (visited : List Symbol) (typo : Name) : Option Name :=
  let maxDist := maxEditDistance typo.length
  if maxDist = 0 then none
  else
    let search := visited.foldl (considerSymbol typo) ⟨none, maxDist + 1, 0⟩
    if search.ties = 1 then search.best else none

/-- The row of a word: its distances to the beginnings of another, from one of them on. -/
noncomputable def distances (word start rest : Name) : List ℕ :=
  rest.inits.map fun front => levenshtein word (start ++ front)

variable {word start rest a b typo name : Name} {letter : UInt8} {maxDist : ℕ}

theorem distances_cons : distances word start (letter :: rest) =
    levenshtein word start :: distances word (start ++ [letter]) rest := by
  simp [distances]

theorem exists_distances : ∃ row, distances word start rest = levenshtein word start :: row := by
  cases rest with
  | nil => exact ⟨[], by simp [distances]⟩
  | cons letter rest => exact ⟨_, distances_cons⟩

theorem nextCells_distances : levenshtein (word ++ [letter]) start :: nextCells letter rest
    (distances word start rest) (levenshtein (word ++ [letter]) start) =
      distances (word ++ [letter]) start rest := by
  induction rest generalizing start with
  | nil => simp [distances, nextCells]
  | cons other rest ih =>
    have ⟨row, isRow⟩ := @exists_distances word (start ++ [other]) rest
    have follows := @ih (start ++ [other])
    have least (deletion insertion substitution : ℕ) :
        (if substitution < if deletion < insertion then deletion else insertion then substitution
          else if deletion < insertion then deletion else insertion) =
          min (min deletion insertion) substitution := by grind
    rw [distances_cons, distances_cons, isRow, nextCells, ← follows, isRow]
    simp only [least, levenshtein_concat]

theorem getLastD_distances : (distances word start rest).getLastD 0 =
    levenshtein word (start ++ rest) := by
  induction rest generalizing start with
  | nil => simp [distances]
  | cons letter rest ih =>
    have ⟨row, isRow⟩ := @exists_distances word (start ++ [letter]) rest
    have last := @ih (start ++ [letter])
    rw [isRow] at last
    rw [distances_cons, isRow]
    simpa using last

theorem distances_nil (b : Name) : distances [] [] b = List.range (b.length + 1) := by
  apply List.ext_getElem
  · simp [distances]
  · intro index _ inside
    have atMost : index ≤ b.length := by simpa using Nat.lt_succ_iff.mp (by simpa using inside)
    simp [distances, levenshtein_nil, atMost]

theorem rowMin_le (curr : List ℕ) (first : ℕ) :
    rowMin curr first ≤ first ∧ ∀ cell ∈ curr, rowMin curr first ≤ cell := by
  induction curr generalizing first with
  | nil => simp [rowMin]
  | cons cell curr ih =>
    have rest := ih (if cell < first then cell else first)
    simp only [rowMin, List.foldl_cons, List.forall_mem_cons] at rest ⊢
    grind

/-- A number that is a distance up to a bound, and above the bound where the distance is. -/
def UpTo (maxDist distance found : ℕ) : Prop :=
  (distance ≤ maxDist → found = distance) ∧ (maxDist < distance → maxDist < found)

theorem editRows_upTo : UpTo maxDist (levenshtein (word ++ rest) b)
    (editRows maxDist b rest word.length (distances word [] b)) := by
  induction rest generalizing word with
  | nil =>
    rw [editRows, getLastD_distances, List.append_nil, List.nil_append]
    exact ⟨fun _ => rfl, id⟩
  | cons letter rest ih =>
    have first : levenshtein (word ++ [letter]) [] = word.length + 1 := by
      rw [levenshtein_comm, levenshtein_nil, List.length_append, List.length_singleton]
    have row := @nextCells_distances word [] b letter
    rw [first] at row
    rw [editRows, row]
    split
    · next exceeds =>
      have above : maxDist < levenshtein ((word ++ [letter]) ++ rest) b := by
        apply lt_levenshtein_append
        intro front isFront
        apply exceeds.trans_le ((rowMin_le _ _).2 _ _)
        exact List.mem_map.mpr ⟨front, (List.mem_inits _ _).mpr isFront, rfl⟩
      rw [List.append_assoc, List.singleton_append] at above
      exact ⟨fun atMost => absurd above (not_lt.mpr atMost), fun _ => Nat.lt_succ_self _⟩
    · have next := @ih (word ++ [letter])
      rwa [List.append_assoc, List.length_append] at next

/-- The distance is found wherever it is within the bound. -/
theorem editDistance_upTo (small : a.length ≤ kTypoMaxIdentifier ∧ b.length ≤ kTypoMaxIdentifier) :
    UpTo maxDist (levenshtein a b) (editDistance a b maxDist) := by
  have ordered {a b : Name} (shorter : a.length ≤ b.length) (small : b.length ≤ kTypoMaxIdentifier) :
      UpTo maxDist (levenshtein a b) (if maxDist < b.length - a.length ∨
        kTypoMaxIdentifier < b.length then maxDist + 1
        else editRows maxDist b a 0 (List.range (b.length + 1))) := by
    split
    · next outside =>
      have lengths := length_le_levenshtein a b
      constructor <;> omega
    · rw [← distances_nil]
      exact @editRows_upTo [] a b maxDist
  by_cases swapped : b.length < a.length
  · rw [levenshtein_comm, editDistance, if_pos swapped]
    exact ordered swapped.le small.1
  · rw [editDistance, if_neg swapped]
    exact ordered (not_lt.mp swapped) small.2

theorem editDistance_long
    (long : ¬(a.length ≤ kTypoMaxIdentifier ∧ b.length ≤ kTypoMaxIdentifier)) :
    editDistance a b maxDist = maxDist + 1 := by
  by_cases swapped : b.length < a.length
  · rw [editDistance, if_pos swapped]
    exact if_pos (Or.inr (by omega))
  · rw [editDistance, if_neg swapped]
    exact if_pos (Or.inr (by omega))

/-! ## The nearest name -/

/-- A name that may be suggested for another. -/
def Admissible (typo name : Name) : Prop :=
  nameIsSuggestable name = true ∧ name ≠ typo ∧
    (isReserved name = true → isReserved typo = true)

/-- The distance of a name that is ranked: none between names that differ in case only, and else
the least cost of a script between names that are not too long. -/
inductive Ranked (typo name : Name) : ℕ → Prop
  | sameLetters : name.length = typo.length → strcasecmp name typo = true → Ranked typo name 0
  | apart : ¬(name.length = typo.length ∧ strcasecmp name typo = true) →
      typo.length ≤ kTypoMaxIdentifier ∧ name.length ≤ kTypoMaxIdentifier →
      Ranked typo name (levenshtein typo name)

theorem Ranked.unique {dist other : ℕ} (ranked : Ranked typo name dist)
    (rankedOther : Ranked typo name other) : dist = other := by
  cases ranked with
  | sameLetters lengths same =>
    cases rankedOther with
    | sameLetters _ _ => rfl
    | apart differ _ => exact absurd ⟨lengths, same⟩ differ
  | apart differ _ =>
    cases rankedOther with
    | sameLetters lengths same => exact absurd ⟨lengths, same⟩ differ
    | apart _ _ => rfl

/-- The candidates are the admissible names within the bound. -/
theorem candidate?_eq_some_iff {dist : ℕ} : candidate? typo name = some dist ↔
    Admissible typo name ∧ Ranked typo name dist ∧ dist ≤ maxEditDistance typo.length := by
  rw [candidate?]
  split
  · next refused =>
    simp only [reduceCtorEq, false_iff]
    rintro ⟨⟨suggestable, different, _⟩, ranked, atMost⟩
    rcases refused with isZero | notSuggestable | same
    · have empty : typo = [] := List.eq_nil_of_length_eq_zero (by rw [maxEditDistance] at isZero; omega)
      rw [isZero, Nat.le_zero] at atMost
      cases ranked with
      | sameLetters lengths _ =>
        rw [empty] at lengths different
        exact different (List.eq_nil_of_length_eq_zero lengths)
      | apart _ _ => exact different (eq_of_levenshtein_eq_zero atMost).symm
    · simp [suggestable] at notSuggestable
    · exact different same
  next accepted =>
  simp only [not_or, Bool.not_eq_true'] at accepted
  split
  · next reserved =>
    simp only [reduceCtorEq, false_iff]
    rintro ⟨⟨_, _, keeps⟩, _⟩
    exact absurd (keeps reserved.1) (by simpa using reserved.2)
  next allowed =>
  have admissible : Admissible typo name :=
    ⟨by simpa using accepted.2.1, accepted.2.2, fun isReserved => by simpa [isReserved] using allowed⟩
  split
  · next same =>
    have ranked := Ranked.sameLetters same.1 same.2
    constructor
    · rintro ⟨⟩
      exact ⟨admissible, ranked, Nat.zero_le _⟩
    · rintro ⟨_, rankedDist, _⟩
      rw [ranked.unique rankedDist]
  next differ =>
  have bound := length_le_levenshtein typo name
  have boundBack := length_le_levenshtein name typo
  rw [levenshtein_comm] at boundBack
  split
  · next outside =>
    simp only [reduceCtorEq, false_iff]
    rintro ⟨_, ranked, atMost⟩
    cases ranked with
    | sameLetters lengths same => exact differ ⟨lengths, same⟩
    | apart _ _ => omega
  by_cases small : typo.length ≤ kTypoMaxIdentifier ∧ name.length ≤ kTypoMaxIdentifier
  · have ranked := Ranked.apart differ small
    have found := @editDistance_upTo typo name (maxEditDistance typo.length) small
    rcases le_or_gt (levenshtein typo name) (maxEditDistance typo.length) with near | far
    · simp only [found.1 near, if_neg (not_lt.mpr near), Option.some.injEq]
      constructor
      · rintro rfl
        exact ⟨admissible, ranked, near⟩
      · rintro ⟨_, rankedDist, _⟩
        exact ranked.unique rankedDist
    · simp only [if_pos (found.2 far), reduceCtorEq, false_iff]
      rintro ⟨_, rankedDist, atMost⟩
      rw [← ranked.unique rankedDist] at atMost
      omega
  · simp only [editDistance_long small, Nat.lt_succ_self, if_true, reduceCtorEq, false_iff]
    rintro ⟨_, ranked, _⟩
    cases ranked with
    | sameLetters lengths same => exact differ ⟨lengths, same⟩
    | apart _ isSmall => exact small isSmall

/-- What the search knows of the names that it has seen. -/
def Searched (typo : Name) (seen : Name → Prop) (search : TypoSearch) : Prop :=
  match search.best with
  | none => (∀ name, seen name → candidate? typo name = none) ∧ search.ties = 0
  | some best => seen best ∧ candidate? typo best = some search.bestDist ∧
    (∀ name, seen name → ∀ dist, candidate? typo name = some dist → search.bestDist ≤ dist) ∧
    search.ties ≠ 0 ∧ (search.ties = 1 ↔
      ∀ name, seen name → candidate? typo name = some search.bestDist → name = best)

variable {seen : Name → Prop} {search : TypoSearch}

theorem Searched.rank {dist : ℕ} (searched : Searched typo seen search)
    (isCandidate : candidate? typo name = some dist) :
    Searched typo (fun other => seen other ∨ other = name) (search.rank name dist) := by
  rw [TypoSearch.rank]
  cases isBest : search.best with
  | none =>
    simp only [Searched, isBest] at searched ⊢
    grind
  | some best =>
    simp only [Searched, isBest] at searched
    obtain ⟨isSeen, isDist, least, found, alone⟩ := searched
    simp only
    split
    · next nearer =>
      simp only [Searched]
      grind
    · split
      · next tied =>
        refine ⟨Or.inl isSeen, isDist, by grind, by grind, ?_⟩
        have two : search.ties + 1 ≠ 1 := by omega
        exact iff_of_false two fun only => tied.2 (only name (Or.inr rfl) (tied.1 ▸ isCandidate))
      · next other =>
        simp only [Searched, isBest]
        grind

theorem Searched.considerSymbol (searched : Searched typo seen search) (symbol : Symbol) :
    Searched typo (fun name => seen name ∨
      (symbol.invented || symbol.isTemp) = false ∧ name = symbol.name)
      (considerSymbol typo search symbol) := by
  rw [Typos.considerSymbol]
  split
  · next hidden => simpa [hidden] using searched
  next visible =>
  simp only [Bool.eq_false_of_not_eq_true visible, true_and]
  cases isCandidate : candidate? typo symbol.name with
  | none =>
    cases isBest : search.best <;> simp only [Searched, isBest] at searched ⊢ <;> grind
  | some dist => exact searched.rank isCandidate

/-- A name is visible if a symbol that is visited has it. -/
def Visible (visited : List Symbol) (name : Name) : Prop :=
  ∃ symbol ∈ visited, (symbol.invented || symbol.isTemp) = false ∧ symbol.name = name

theorem searched_foldl (visited : List Symbol) (searched : Searched typo seen search) :
    Searched typo (fun name => seen name ∨ Visible visited name)
      (visited.foldl (considerSymbol typo) search) := by
  induction visited generalizing seen search with
  | nil => simpa [Visible] using searched
  | cons symbol visited ih =>
    have rest := ih (searched.considerSymbol symbol)
    have sameNames (name : Name) : ((seen name ∨
        (symbol.invented || symbol.isTemp) = false ∧ name = symbol.name) ∨ Visible visited name) ↔
          seen name ∨ Visible (symbol :: visited) name := by
      rw [or_assoc, Visible, Visible, List.exists_mem_cons_iff, eq_comm (a := name)]
    simpa only [sameNames, List.foldl_cons] using rest

/-- A distance is found up to the bound, and a name is suggested if it is the only nearest one. -/
theorem suggestion_nearest (typo : Name) :
    (∀ a b maxDist, a.length ≤ kTypoMaxIdentifier ∧ b.length ≤ kTypoMaxIdentifier →
      (levenshtein a b ≤ maxDist → editDistance a b maxDist = levenshtein a b) ∧
      (maxDist < levenshtein a b → maxDist < editDistance a b maxDist)) ∧
    ∀ visited suggestion, typoCorrectionFindVisibleName visited typo = some suggestion ↔
      Visible visited suggestion ∧ Admissible typo suggestion ∧
        ∃ dist, Ranked typo suggestion dist ∧ dist ≤ (typo.length + 2) / 3 ∧
          ∀ other, Visible visited other → Admissible typo other → other ≠ suggestion →
            ∀ otherDist, Ranked typo other otherDist → dist < otherDist := by
  refine ⟨fun a b maxDist => editDistance_upTo, ?_⟩
  intro visited suggestion
  have searched := searched_foldl visited
    (show Searched typo (fun _ => False) ⟨none, maxEditDistance typo.length + 1, 0⟩ from
      ⟨nofun, rfl⟩)
  simp only [false_or] at searched
  rw [typoCorrectionFindVisibleName]
  simp only
  generalize visited.foldl _ _ = search at searched ⊢
  constructor
  · intro suggested
    split at suggested
    · cases suggested
    split at suggested
    · next only =>
      rw [Searched, suggested] at searched
      have ⟨visible, isDist, least, _, alone⟩ := searched
      have ⟨admissible, ranked, atMost⟩ := candidate?_eq_some_iff.mp isDist
      refine ⟨visible, admissible, search.bestDist, ranked, atMost, ?_⟩
      intro other otherVisible otherAdmissible different otherDist otherRanked
      rcases le_or_gt otherDist (maxEditDistance typo.length) with near | far
      · have isOther := candidate?_eq_some_iff.mpr ⟨otherAdmissible, otherRanked, near⟩
        apply lt_of_le_of_ne (least other otherVisible otherDist isOther)
        intro same
        exact different (alone.mp only other otherVisible (same ▸ isOther))
      · exact atMost.trans_lt far
    · cases suggested
  · rintro ⟨visible, admissible, dist, ranked, atMost, nearest⟩
    have isCandidate := candidate?_eq_some_iff.mpr ⟨admissible, ranked, atMost⟩
    have positive : maxEditDistance typo.length ≠ 0 := by
      intro isZero
      rw [candidate?, if_pos (Or.inl isZero)] at isCandidate
      cases isCandidate
    rw [if_neg positive]
    cases isBest : search.best with
    | none =>
      rw [Searched, isBest] at searched
      rw [searched.1 suggestion visible] at isCandidate
      cases isCandidate
    | some best =>
      rw [Searched, isBest] at searched
      have ⟨bestVisible, isDist, least, _, alone⟩ := searched
      have ⟨bestAdmissible, bestRanked, _⟩ := candidate?_eq_some_iff.mp isDist
      have same : best = suggestion := by
        by_contra different
        have farther := nearest best bestVisible bestAdmissible different _ bestRanked
        exact absurd (least suggestion visible dist isCandidate) (not_le.mpr farther)
      rw [same] at isDist alone
      rw [if_pos (alone.mpr fun other otherVisible isOther => ?_), same]
      by_contra different
      have ⟨otherAdmissible, otherRanked, _⟩ := candidate?_eq_some_iff.mp isOther
      have farther := nearest other otherVisible otherAdmissible different _ otherRanked
      rw [isDist] at isCandidate
      exact absurd (Option.some.inj isCandidate) farther.ne'

/-- A name in the other case is suggested although no letter of it is the same. -/
theorem suggestion_otherCase :
    typoCorrectionFindVisibleName [⟨literal "ABC", false, false⟩] (literal "abc") =
      some (literal "ABC") ∧ ((literal "abc").length + 2) / 3 <
        levenshtein (literal "abc") (literal "ABC") := by
  refine ⟨by decide, ?_⟩
  by_contra near
  have found := (@editDistance_upTo (literal "abc") (literal "ABC") 1 (by decide)).1 (not_lt.mp near)
  have isTwo : editDistance (literal "abc") (literal "ABC") 1 = 2 := by decide
  rw [isTwo] at found
  rw [← found] at near
  exact near (by decide)

end DaveCC.Frontend.Typos
