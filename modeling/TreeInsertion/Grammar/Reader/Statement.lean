import TreeInsertion.Grammar.Reader.Token
import TreeInsertion.Rule.Basic

/-!
# Statements of the grammar format

A grammar is written as statements, each of which names start symbols or gives a
rule.  The loop over the items of a list ends because every item takes something
from the text.
-/

namespace TreeInsertion

theorem bind_eq_ok {ε α β : Type} {x : Except ε α} {f : α → Except ε β} {b : β} :
    x >>= f = .ok b ↔ ∃ a, x = .ok a ∧ f a = .ok b := by
  cases x <;> simp [bind, Except.bind]

inductive Statement where
  | start (symbols : List String)
  | rule (r : Rule Float)

/-! ## Lists of items -/

/-- The text after the character `c`, if that comes next behind layout. -/
def after? (c : Char) (s : List Char) : Option (List Char) :=
  match skipLayout s with
  | [] => none
  | d :: rest => if d = c then some rest else none

theorem after?_lt {c : Char} {s rest : List Char} (h : after? c s = some rest) :
    rest.length < s.length := by
  have hle := length_skipLayout_le s
  unfold after? at h
  split at h
  · cases h
  · rename_i hskip
    split at h
    · cases h
      simp only [hskip, List.length_cons] at hle
      omega
    · cases h

def readUntil {α : Type} (close : Char) (item : List Char → Reading α) (shrinks : Shrinks item)
    (s : List Char) : Reading (List α) :=
  match after? close s with
  | some rest => .ok ([], rest)
  | none =>
      match _hitem : item (skipLayout s) with
      | .error e => .error e
      | .ok (a, rest) =>
          match readUntil close item shrinks rest with
          | .error e => .error e
          | .ok (as, tail) => .ok (a :: as, tail)
termination_by s.length
decreasing_by
  exact Nat.lt_of_lt_of_le (shrinks _ _ _ _hitem) (length_skipLayout_le s)

theorem readUntil_lt {α : Type} {close : Char} {item : List Char → Reading α}
    {shrinks : Shrinks item} {s rest : List Char} {as : List α}
    (h : readUntil close item shrinks s = .ok (as, rest)) : rest.length < s.length := by
  fun_induction readUntil close item shrinks s generalizing as rest with
  | case1 s tail hafter =>
      cases h
      exact after?_lt hafter
  | case2 => cases h
  | case3 => cases h
  | case4 s _ a tail hitem bs last hrec ih =>
      cases h
      have := ih hrec
      have := shrinks _ _ _ hitem
      have := length_skipLayout_le s
      omega

/-! ## Layers -/

def needArrow (s : List Char) : Reading Unit :=
  match s with
  | '-' :: '>' :: rest => .ok ((), rest)
  | _ => .error (.noLexeme .arrow s)

theorem needArrow_lt {s rest : List Char} {u : Unit} (h : needArrow s = .ok (u, rest)) :
    rest.length < s.length := by
  unfold needArrow at h
  split at h
  · cases h
    simp only [List.length_cons]
    omega
  · cases h

def readEntries (g : Address) : List Char → Reading (List Entry) :=
  readUntil ';' (fun s => within (.entry g) (readEntry s))
    fun _ _ _ h => readEntry_lt (within_eq_ok.1 h)

/-- A layer such as `0.2: VP -> saw NP!;`. -/
def readLayer (s : List Char) : Except ReadError (Layer × List Char) := do
  let (g, s) ← readAddress s
  let (_, s) ← needChar ':' (skipLayout s)
  let (lhs, s) ← within (.parent g) (readName (skipLayout s))
  let (_, s) ← within (.arrow g) (needArrow (skipLayout s))
  let (rhs, s) ← readEntries g s
  return (⟨g, ⟨.nonterminal, lhs⟩ :: rhs⟩, s)

theorem readLayer_lt {s rest : List Char} {l : Layer} (h : readLayer s = .ok (l, rest)) :
    rest.length < s.length := by
  unfold readLayer at h
  obtain ⟨⟨g, s1⟩, haddress, h⟩ := bind_eq_ok.1 h
  obtain ⟨⟨_, s2⟩, hcolon, h⟩ := bind_eq_ok.1 h
  obtain ⟨⟨lhs, s3⟩, hname, h⟩ := bind_eq_ok.1 h
  obtain ⟨⟨_, s4⟩, harrow, h⟩ := bind_eq_ok.1 h
  obtain ⟨⟨rhs, s5⟩, hentries, h⟩ := bind_eq_ok.1 h
  cases h
  have := readAddress_lt haddress
  have := needChar_lt hcolon
  have := readName_lt (within_eq_ok.1 hname)
  have := needArrow_lt (within_eq_ok.1 harrow)
  have := readUntil_lt hentries
  have := length_skipLayout_le s1
  have := length_skipLayout_le s2
  have := length_skipLayout_le s3
  omega

/-! ## Rules -/

/-- What may stand between the anchors of a rule and its layers. -/
inductive Attribute where
  | freq (n : Nat)
  | prob (x : Float)
  | spine (g : Address)

def readAttribute (index : Nat) (s : List Char) : Except ReadError (Attribute × List Char) := do
  let (name, s) ← readName s
  match name with
  | "freq" =>
      let (n, s) ← readInteger (skipLayout s)
      return (.freq n, s)
  | "prob" =>
      let (x, s) ← readDecimal (skipLayout s)
      return (.prob x, s)
  | "spine" =>
      let (g, s) ← readAddress (skipLayout s)
      return (.spine g, s)
  | other => throw (.unknownAttribute index other)

theorem readAttribute_lt {index : Nat} {s rest : List Char} {a : Attribute}
    (h : readAttribute index s = .ok (a, rest)) : rest.length < s.length := by
  unfold readAttribute at h
  obtain ⟨⟨name, s1⟩, hname, h⟩ := bind_eq_ok.1 h
  have := readName_lt hname
  have := length_skipLayout_le s1
  dsimp only at h
  split at h
  · obtain ⟨⟨n, s2⟩, hvalue, h⟩ := bind_eq_ok.1 h
    cases h
    have := readInteger_lt hvalue
    dsimp only
    omega
  · obtain ⟨⟨x, s2⟩, hvalue, h⟩ := bind_eq_ok.1 h
    cases h
    have := readDecimal_lt hvalue
    dsimp only
    omega
  · obtain ⟨⟨g, s2⟩, hvalue, h⟩ := bind_eq_ok.1 h
    cases h
    have := readAddress_lt hvalue
    dsimp only
    omega
  · cases h

/-- Of attributes of one kind the last one counts. -/
def Attribute.apply (r : Rule Float) : Attribute → Rule Float
  | freq n => { r with freq := n }
  | prob x => { r with weight := x }
  | spine g => { r with spine := some g }

def readAnchors (index : Nat) : List Char → Reading (List String) :=
  readUntil ']' (fun s => within (.anchor index) (readWord s))
    fun _ _ _ h => readWord_lt (within_eq_ok.1 h)

def readAttributes (index : Nat) : List Char → Reading (List Attribute) :=
  readUntil '\x7b' (readAttribute index) fun _ _ _ h => readAttribute_lt h

def readLayers (index : Nat) : List Char → Reading (List Layer) :=
  readUntil '\x7d' (fun s => within (.body index) (readLayer s))
    fun _ _ _ h => readLayer_lt (within_eq_ok.1 h)

/-- A rule from its index on.  It has frequency 0 and probability 1 unless it says otherwise. -/
def readRule (s : List Char) : Except ReadError (Rule Float × List Char) := do
  let (index, s) ← within .ruleIndex (readInteger s)
  let (_, s) ← needChar '[' (skipLayout s)
  let (anchors, s) ← readAnchors index s
  let (attributes, s) ← readAttributes index s
  let (layers, s) ← readLayers index s
  return (attributes.foldl Attribute.apply ⟨index, layers, anchors, 0, 1.0, none⟩, s)

theorem readRule_lt {s rest : List Char} {r : Rule Float} (h : readRule s = .ok (r, rest)) :
    rest.length < s.length := by
  unfold readRule at h
  obtain ⟨⟨index, s1⟩, hindex, h⟩ := bind_eq_ok.1 h
  obtain ⟨⟨_, s2⟩, hbracket, h⟩ := bind_eq_ok.1 h
  obtain ⟨⟨anchors, s3⟩, hanchors, h⟩ := bind_eq_ok.1 h
  obtain ⟨⟨attributes, s4⟩, hattributes, h⟩ := bind_eq_ok.1 h
  obtain ⟨⟨layers, s5⟩, hlayers, h⟩ := bind_eq_ok.1 h
  cases h
  have := readInteger_lt (within_eq_ok.1 hindex)
  have := needChar_lt hbracket
  have := readUntil_lt hanchors
  have := readUntil_lt hattributes
  have := readUntil_lt hlayers
  have := length_skipLayout_le s1
  omega

/-! ## Start symbols -/

def readSymbol (s : List Char) : Reading String :=
  within .startSymbol (readName s)

def readNextSymbol (s : List Char) : Except ReadError (String × List Char) := do
  let (_, s) ← needChar ',' s
  readSymbol (skipLayout s)

theorem readNextSymbol_lt {s rest : List Char} {name : String}
    (h : readNextSymbol s = .ok (name, rest)) : rest.length < s.length := by
  unfold readNextSymbol at h
  obtain ⟨⟨_, s1⟩, hcomma, hname⟩ := bind_eq_ok.1 h
  have := needChar_lt hcomma
  have := readName_lt (within_eq_ok.1 hname)
  have := length_skipLayout_le s1
  omega

def readSymbols (s : List Char) : Except ReadError (List String × List Char) :=
  match after? ';' s with
  | some rest => .ok ([], rest)
  | none => do
      let (first, s) ← readSymbol (skipLayout s)
      let (more, s) ← readUntil ';' readNextSymbol (fun _ _ _ h => readNextSymbol_lt h) s
      return (first :: more, s)

theorem readSymbols_lt {s rest : List Char} {symbols : List String}
    (h : readSymbols s = .ok (symbols, rest)) : rest.length < s.length := by
  unfold readSymbols at h
  split at h
  · rename_i hafter
    cases h
    exact after?_lt hafter
  · obtain ⟨⟨first, s1⟩, hfirst, h⟩ := bind_eq_ok.1 h
    obtain ⟨⟨more, s2⟩, hmore, h⟩ := bind_eq_ok.1 h
    cases h
    have := readName_lt (within_eq_ok.1 hfirst)
    have := readUntil_lt hmore
    have := length_skipLayout_le s
    omega

/-! ## Statements -/

def readStatement (s : List Char) : Except ReadError (Statement × List Char) := do
  let (keyword, s) ← readName s
  match keyword with
  | "start" =>
      let (symbols, s) ← readSymbols (skipLayout s)
      return (.start symbols, s)
  | "rule" =>
      let (r, s) ← readRule (skipLayout s)
      return (.rule r, s)
  | other => throw (.unknownStatement other)

theorem readStatement_lt {s rest : List Char} {statement : Statement}
    (h : readStatement s = .ok (statement, rest)) : rest.length < s.length := by
  unfold readStatement at h
  obtain ⟨⟨keyword, s1⟩, hname, h⟩ := bind_eq_ok.1 h
  have := readName_lt hname
  have := length_skipLayout_le s1
  dsimp only at h
  split at h
  · obtain ⟨⟨symbols, s2⟩, hsymbols, h⟩ := bind_eq_ok.1 h
    cases h
    have := readSymbols_lt hsymbols
    dsimp only
    omega
  · obtain ⟨⟨r, s2⟩, hrule, h⟩ := bind_eq_ok.1 h
    cases h
    have := readRule_lt hrule
    dsimp only
    omega
  · cases h

def readStatements (s : List Char) : Reading (List Statement) :=
  if (skipLayout s).isEmpty then .ok ([], skipLayout s)
  else
    match _hstatement : readStatement (skipLayout s) with
    | .error e => .error e
    | .ok (statement, rest) =>
        match readStatements rest with
        | .error e => .error e
        | .ok (statements, tail) => .ok (statement :: statements, tail)
termination_by s.length
decreasing_by
  exact Nat.lt_of_lt_of_le (readStatement_lt _hstatement) (length_skipLayout_le s)

end TreeInsertion
