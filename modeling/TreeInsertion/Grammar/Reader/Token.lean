import TreeInsertion.Decimal.Numeral
import TreeInsertion.Grammar.Reader.Error
import TreeInsertion.Layer
import TreeInsertion.Text.RecentLetter
import TreeInsertion.Text.Sentence

/-!
# Tokens of the grammar format

A reader takes the text that is left and returns a value and the text after it.
Beside each reader stands the bound on its rest, by which the loops over tokens
end: what a reader needs is never empty, so the rest is shorter.
-/

namespace TreeInsertion

/-- The outcome of a reader: a value with the rest of the text, or an error. -/
abbrev Reading (α : Type) :=
  Except ReadError (α × List Char)

/-- A reader that takes at least one character from the text. -/
def Shrinks {α : Type} (reader : List Char → Reading α) : Prop :=
  ∀ s a rest, reader s = .ok (a, rest) → rest.length < s.length

def within {α : Type} (place : Place) (reading : Reading α) : Reading α :=
  match reading with
  | .ok result => .ok result
  | .error e => .error (.within place e)

@[simp] theorem within_eq_ok {α : Type} {place : Place} {reading : Reading α}
    {result : α × List Char} :
    within place reading = .ok result ↔ reading = .ok result := by
  cases reading <;> simp [within]

/-- The letters that names may hold, which are those of Unicode 16.0. -/
def isNameLetter (c : Char) : Bool :=
  isAlphabetic c && !CharSet.recentLetter.contains c

def isNameChar (c : Char) : Bool :=
  isNameLetter c || c.isDigit || c == '-' || c == '_'

/-! ## Layout -/

mutual

/-- Skip blank characters and comments, which go from two slashes to the end of their line. -/
def skipLayout : List Char → List Char
  | [] => []
  | '/' :: '/' :: rest => skipComment rest
  | c :: rest => if isBlank c then skipLayout rest else c :: rest

def skipComment : List Char → List Char
  | [] => []
  | c :: rest => if c = '\n' then skipLayout rest else skipComment rest

end

theorem skip_suffix (n : Nat) (s : List Char) (h : s.length ≤ n) :
    skipLayout s <:+ s ∧ skipComment s <:+ s := by
  induction n generalizing s with
  | zero =>
      have hnil : s = [] := List.length_eq_zero_iff.1 (Nat.le_zero.1 h)
      simp [hnil, skipLayout, skipComment]
  | succ n ih =>
      refine ⟨?_, ?_⟩
      · unfold skipLayout
        split
        · exact List.suffix_refl _
        · rename_i rest
          have hrest := (ih rest (by simp only [List.length_cons] at h; omega)).2
          exact (hrest.trans (List.suffix_cons _ _)).trans (List.suffix_cons _ _)
        · rename_i c rest _
          have hrest := (ih rest (by simp only [List.length_cons] at h; omega)).1
          split
          · exact hrest.trans (List.suffix_cons c rest)
          · exact List.suffix_refl _
      · unfold skipComment
        split
        · exact List.suffix_refl _
        · rename_i c rest
          have hrest := ih rest (by simp only [List.length_cons] at h; omega)
          split
          · exact hrest.1.trans (List.suffix_cons c rest)
          · exact hrest.2.trans (List.suffix_cons c rest)

theorem skipLayout_suffix (s : List Char) : skipLayout s <:+ s :=
  (skip_suffix s.length s (Nat.le_refl _)).1

theorem length_skipLayout_le (s : List Char) : (skipLayout s).length ≤ s.length :=
  (skipLayout_suffix s).length_le

/-! ## Lexemes -/

def needChar (c : Char) (s : List Char) : Reading Unit :=
  match s with
  | [] => .error (.noChar c s)
  | d :: rest => if d = c then .ok ((), rest) else .error (.noChar c s)

theorem needChar_lt {c : Char} {s rest : List Char} {u : Unit}
    (h : needChar c s = .ok (u, rest)) : rest.length < s.length := by
  cases s with
  | nil =>
      simp [needChar] at h
  | cons d tail =>
      simp only [needChar] at h
      split at h
      · cases h
        simp
      · cases h

/-- The longest beginning of `s` with characters in `p`, which may not be empty. -/
def needRun (lexeme : Lexeme) (p : Char → Bool) (s : List Char) : Reading (List Char) :=
  if (s.takeWhile p).isEmpty then .error (.noLexeme lexeme s)
  else .ok (s.takeWhile p, s.dropWhile p)

theorem needRun_lt {lexeme : Lexeme} {p : Char → Bool} {s run rest : List Char}
    (h : needRun lexeme p s = .ok (run, rest)) : rest.length < s.length := by
  unfold needRun at h
  split at h
  · cases h
  · rename_i hne
    cases h
    have hsum := congrArg List.length (List.takeWhile_append_dropWhile (p := p) (l := s))
    have hpos : 0 < (s.takeWhile p).length := by
      cases htake : s.takeWhile p with
      | nil =>
          simp [htake] at hne
      | cons =>
          simp
    simp only [List.length_append] at hsum
    omega

def readName (s : List Char) : Reading String :=
  match within .name (needRun .name isNameChar s) with
  | .error e => .error e
  | .ok (cs, rest) => .ok (String.ofList cs, rest)

theorem readName_lt {s rest : List Char} {name : String} (h : readName s = .ok (name, rest)) :
    rest.length < s.length := by
  unfold readName at h
  split at h
  · cases h
  · rename_i hrun
    cases h
    exact needRun_lt (within_eq_ok.1 hrun)

/-- The number that the digits write, if 64 bits hold it. -/
def wordOfDigits (ds : List Char) : Except ReadError Nat :=
  let n := Decimal.ofDigits ds
  if n < UInt64.size then .ok n else .error .tooLarge

def readInteger (s : List Char) : Reading Nat :=
  match needRun .integer Char.isDigit s with
  | .error e => .error e
  | .ok (ds, rest) =>
      match wordOfDigits ds with
      | .error e => .error e
      | .ok n => .ok (n, rest)

theorem readInteger_lt {s rest : List Char} {n : Nat} (h : readInteger s = .ok (n, rest)) :
    rest.length < s.length := by
  unfold readInteger at h
  split at h
  · cases h
  · rename_i hrun
    split at h
    · cases h
    · cases h
      exact needRun_lt hrun

def readDecimal (s : List Char) : Reading Float :=
  match needRun .decimal Char.isDigit s with
  | .error e => .error e
  | .ok (whole, rest) =>
      let (fraction, rest) := Decimal.takeFraction rest
      let (exponent, rest) := Decimal.takeExponent rest
      .ok (Decimal.ofParts whole fraction exponent, rest)

theorem readDecimal_lt {s rest : List Char} {x : Float} (h : readDecimal s = .ok (x, rest)) :
    rest.length < s.length := by
  unfold readDecimal at h
  split at h
  · cases h
  · rename_i whole tail hrun
    have hlt := needRun_lt hrun
    have hfraction := Decimal.takeFraction_le tail
    have hexponent := Decimal.takeExponent_le (Decimal.takeFraction tail).2
    simp only [Except.ok.injEq, Prod.mk.injEq] at h
    rw [← h.2]
    omega

/-- The steps of an address after the first one, each after a point. -/
def moreSteps (s : List Char) : List (List Char) × List Char :=
  match s with
  | '.' :: rest =>
      if (rest.takeWhile Char.isDigit).isEmpty then ([], s)
      else
        let (steps, tail) := moreSteps (rest.dropWhile Char.isDigit)
        (rest.takeWhile Char.isDigit :: steps, tail)
  | _ => ([], s)
termination_by s.length
decreasing_by
  have := (List.dropWhile_sublist (l := rest) Char.isDigit).length_le
  simp only [List.length_cons]
  omega

theorem moreSteps_le (s : List Char) : (moreSteps s).2.length ≤ s.length := by
  fun_induction moreSteps s with
  | case1 => exact Nat.le_refl _
  | case2 rest _ steps tail htail ih =>
      have := (List.dropWhile_sublist (l := rest) Char.isDigit).length_le
      simp only [htail] at ih
      simp only [List.length_cons]
      omega
  | case3 => exact Nat.le_refl _

/-- An address with points between its steps, as in `0.2.1`. -/
def readAddress (s : List Char) : Reading Address :=
  match within .address (needRun .address Char.isDigit s) with
  | .error e => .error e
  | .ok (first, rest) =>
      match (first :: (moreSteps rest).1).mapM wordOfDigits with
      | .error e => .error e
      | .ok path => .ok (⟨path⟩, (moreSteps rest).2)

theorem readAddress_lt {s rest : List Char} {g : Address} (h : readAddress s = .ok (g, rest)) :
    rest.length < s.length := by
  unfold readAddress at h
  split at h
  · cases h
  · rename_i first tail hrun
    have hlt := needRun_lt (within_eq_ok.1 hrun)
    have hle := moreSteps_le tail
    split at h
    · cases h
    · cases h
      omega

/-- A bare name, or any text without a double quote between double quotes. -/
def readWord (s : List Char) : Reading String :=
  match s with
  | '"' :: rest =>
      match rest.dropWhile (· != '"') with
      | [] => .error (.within .quotedWord (.noLexeme .quoted s))
      | _ :: tail => .ok (String.ofList (rest.takeWhile (· != '"')), tail)
  | _ => readName s

theorem readWord_lt {s rest : List Char} {word : String} (h : readWord s = .ok (word, rest)) :
    rest.length < s.length := by
  unfold readWord at h
  split at h
  · rename_i body
    split at h
    · cases h
    · rename_i c tail hdrop
      cases h
      have := (List.dropWhile_sublist (l := body) (· != '"')).length_le
      simp only [hdrop, List.length_cons] at this ⊢
      omega
  · exact readName_lt h

/--
An entry of a layer: a quoted word or a name that starts with a small letter is a
terminal, a name with `!` a substitution site, one with `*` a foot, and any other
name a nonterminal.
-/
def readEntry (s : List Char) : Reading Entry :=
  match s with
  | '"' :: _ =>
      match readWord s with
      | .error e => .error e
      | .ok (word, rest) => .ok (⟨.terminal, word⟩, rest)
  | _ =>
      match readName s with
      | .error e => .error e
      | .ok (name, '!' :: rest) => .ok (⟨.substitution, name⟩, rest)
      | .ok (name, '*' :: rest) => .ok (⟨.foot, name⟩, rest)
      | .ok (name, rest) =>
          if name.toList.head?.any isLowercase then .ok (⟨.terminal, name⟩, rest)
          else .ok (⟨.nonterminal, name⟩, rest)

theorem readEntry_lt {s rest : List Char} {e : Entry} (h : readEntry s = .ok (e, rest)) :
    rest.length < s.length := by
  unfold readEntry at h
  split at h
  · split at h
    · cases h
    · rename_i hword
      cases h
      exact readWord_lt hword
  · split at h
    · cases h
    · rename_i hname
      cases h
      have := readName_lt hname
      simp only [List.length_cons] at this
      omega
    · rename_i hname
      cases h
      have := readName_lt hname
      simp only [List.length_cons] at this
      omega
    · rename_i hname
      split at h <;> cases h <;> exact readName_lt hname

end TreeInsertion
