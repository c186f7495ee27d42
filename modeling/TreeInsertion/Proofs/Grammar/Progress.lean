import TreeInsertion.Grammar.Reader
import TreeInsertion.Proofs.Grammar.InStep

/-!
# Reading comes to an end

What a reader leaves is the end of its text, and a loop over items that goes on leaves a
shorter one.  So every loop ends, whatever the text.  The statements of a grammar are read
up to the end of the text or not at all, so nothing is ever left over that would have to be
complained about.
-/

namespace TreeInsertion

variable {α β : Type}

/-! ## What readers leave -/

/-- A reading of `s` that leaves an end of it, and does not complain about what is left. -/
structure Tame (s : List Char) (x : Except ReadError (α × List Char)) : Prop where
  suffix : ∀ {a : α} {rest : List Char}, x = .ok (a, rest) → rest <:+ s
  expected : ∀ {rest : List Char}, x ≠ .error (.unexpectedInput rest)

section Tame

variable {s t : List Char}

theorem tame_ok {rest : List Char} (h : rest <:+ s) (a : α) : Tame s (.ok (a, rest)) where
  suffix heq := by
    cases heq
    exact h
  expected := nofun

theorem tame_error {e : ReadError} (h : ∀ rest, e ≠ .unexpectedInput rest) :
    Tame s (.error e : Reading α) where
  suffix := nofun
  expected heq := h _ (Except.error.inj heq)

namespace Tame

theorem error {x : Reading α} (h : Tame s x) {e : ReadError} (hx : x = .error e) :
    Tame s (.error e : Reading β) :=
  tame_error fun _ heq => h.expected (heq ▸ hx)

theorem mono {x : Reading α} (h : Tame s x) (hs : s <:+ t) : Tame t x :=
  ⟨fun heq => (h.suffix heq).trans hs, h.expected⟩

/-- Within a place every error is one of that place. -/
theorem within {x : Reading α} (h : ∀ {a rest}, x = .ok (a, rest) → rest <:+ s) (place : Place) :
    Tame s (within place x) where
  suffix heq := h (within_eq_ok.1 heq)
  expected := by cases x <;> simp [TreeInsertion.within]

theorem bind {x : Except ReadError (α × List Char)} (h : Tame s x)
    {f : α × List Char → Except ReadError (β × List Char)}
    (hf : ∀ a rest, x = .ok (a, rest) → Tame rest (f (a, rest))) : Tame s (x >>= f) := by
  cases x with
  | error e => exact h.error rfl
  | ok result => exact (hf result.1 result.2 rfl).mono (h.suffix rfl)

end Tame

theorem suffix_of_after? {c : Char} {rest : List Char} (h : after? c s = some rest) :
    rest <:+ s := by
  unfold after? at h
  split at h
  · cases h
  · rename_i hskip
    split at h
    · cases h
      have hskipped := skipLayout_suffix s
      rw [hskip] at hskipped
      exact (List.suffix_cons _ _).trans hskipped
    · cases h

theorem Tame.behind {x : Reading α} (h : Tame (skipLayout s) x) : Tame s x :=
  h.mono (skipLayout_suffix s)

theorem tame_needChar (c : Char) (s : List Char) : Tame s (needChar c s) := by
  unfold needChar
  split
  · exact tame_error nofun
  · split
    · exact tame_ok (List.suffix_cons _ _) ()
    · exact tame_error nofun

theorem tame_needRun (lexeme : Lexeme) (p : Char → Bool) (s : List Char) :
    Tame s (needRun lexeme p s) := by
  unfold needRun
  split
  · exact tame_error nofun
  · exact tame_ok (List.dropWhile_suffix p) _

theorem tame_needArrow (s : List Char) : Tame s (needArrow s) := by
  unfold needArrow
  split
  · exact tame_ok ((List.suffix_cons _ _).trans (List.suffix_cons _ _)) ()
  · exact tame_error nofun

theorem tame_readName (s : List Char) : Tame s (readName s) := by
  have hrun := Tame.within (tame_needRun .name isNameChar s).suffix .name
  unfold readName
  split
  · exact hrun.error ‹_›
  · exact tame_ok (hrun.suffix ‹_›) _

theorem eq_tooLarge_of_wordOfDigits {ds : List Char} {e : ReadError}
    (h : wordOfDigits ds = .error e) : e = .tooLarge := by
  unfold wordOfDigits at h
  dsimp only at h
  split at h <;> cases h
  rfl

theorem eq_tooLarge_of_mapM_wordOfDigits {dss : List (List Char)} {e : ReadError}
    (h : dss.mapM wordOfDigits = .error e) : e = .tooLarge := by
  induction dss with
  | nil => cases h
  | cons ds rest ih =>
      rw [List.mapM_cons] at h
      cases hds : wordOfDigits ds with
      | error e' =>
          rw [hds] at h
          cases h
          exact eq_tooLarge_of_wordOfDigits hds
      | ok n =>
          cases hrest : rest.mapM wordOfDigits with
          | error e' =>
              rw [hds, hrest] at h
              cases h
              exact ih hrest
          | ok path =>
              rw [hds, hrest] at h
              cases h

theorem tame_readInteger (s : List Char) : Tame s (readInteger s) := by
  have hrun := tame_needRun .integer Char.isDigit s
  unfold readInteger
  split
  · exact hrun.error ‹_›
  · split
    · exact tame_error (by simp [eq_tooLarge_of_wordOfDigits ‹_›])
    · exact tame_ok (hrun.suffix ‹_›) _

theorem tame_readDecimal (s : List Char) : Tame s (readDecimal s) where
  suffix := local_readDecimal.suffix
  expected {rest} h := by
    unfold readDecimal at h
    split at h
    · cases h
      exact (tame_needRun .decimal Char.isDigit s).expected ‹_›
    · cases h

theorem tame_readAddress (s : List Char) : Tame s (readAddress s) where
  suffix := local_readAddress.suffix
  expected {rest} h := by
    have hrun := Tame.within (tame_needRun .address Char.isDigit s).suffix .address
    unfold readAddress at h
    split at h
    · cases h
      exact hrun.expected ‹_›
    · split at h
      · cases h
        cases eq_tooLarge_of_mapM_wordOfDigits ‹_›
      · cases h

theorem tame_readWord (s : List Char) : Tame s (readWord s) := by
  unfold readWord
  split
  · rename_i body
    split
    · exact tame_error nofun
    · rename_i c tail hdrop
      have hbody := List.dropWhile_suffix (l := body) (· != '"')
      rw [hdrop] at hbody
      exact tame_ok (((List.suffix_cons c tail).trans hbody).trans (List.suffix_cons _ _)) _
  · exact tame_readName s

theorem tame_readEntry (s : List Char) : Tame s (readEntry s) := by
  have hword := tame_readWord s
  have hname := tame_readName s
  unfold readEntry
  split
  · split
    · exact hword.error ‹_›
    · exact tame_ok (hword.suffix ‹_›) _
  · split
    · exact hname.error ‹_›
    · exact tame_ok ((List.suffix_cons _ _).trans (hname.suffix ‹_›)) _
    · exact tame_ok ((List.suffix_cons _ _).trans (hname.suffix ‹_›)) _
    · split
      · exact tame_ok (hname.suffix ‹_›) _
      · exact tame_ok (hname.suffix ‹_›) _

theorem tame_readUntil {close : Char} {item : List Char → Reading α} {shrinks : Shrinks item}
    (hitem : ∀ s, Tame s (item s)) (s : List Char) :
    Tame s (readUntil close item shrinks s) := by
  induction hn : s.length using Nat.strongRecOn generalizing s with
  | _ n ih =>
      cases hafter : after? close s with
      | some rest =>
          rw [readUntil_close hafter]
          exact tame_ok (suffix_of_after? hafter) []
      | none =>
          rw [readUntil_eq hafter]
          refine (hitem _).behind.bind fun a rest hread => ?_
          have hlt := Nat.lt_of_lt_of_le (shrinks _ _ _ hread) (length_skipLayout_le s)
          exact (ih rest.length (hn ▸ hlt) rest rfl).bind fun as tail _ =>
            tame_ok (List.suffix_refl tail) (a :: as)

theorem tame_readEntries (g : Address) (s : List Char) : Tame s (readEntries g s) :=
  tame_readUntil (fun s => .within (tame_readEntry s).suffix _) s

theorem tame_readLayer (s : List Char) : Tame s (readLayer s) := by
  refine (tame_readAddress s).bind fun g s _ => ?_
  refine (tame_needChar ':' _).behind.bind fun _ s _ => ?_
  refine (Tame.within (tame_readName _).suffix (.parent g)).behind.bind fun lhs s _ => ?_
  refine (Tame.within (tame_needArrow _).suffix (.arrow g)).behind.bind fun _ s _ => ?_
  exact (tame_readEntries g s).bind fun rhs s _ => tame_ok (List.suffix_refl s) _

theorem tame_readAttribute (index : Nat) (s : List Char) : Tame s (readAttribute index s) := by
  refine (tame_readName s).bind fun name s _ => ?_
  dsimp only
  split
  · exact (tame_readInteger _).behind.bind fun n s _ => tame_ok (List.suffix_refl s) _
  · exact (tame_readDecimal _).behind.bind fun x s _ => tame_ok (List.suffix_refl s) _
  · exact (tame_readAddress _).behind.bind fun g s _ => tame_ok (List.suffix_refl s) _
  · exact tame_error nofun

theorem tame_readAnchors (index : Nat) (s : List Char) : Tame s (readAnchors index s) :=
  tame_readUntil (fun s => .within (tame_readWord s).suffix _) s

theorem tame_readAttributes (index : Nat) (s : List Char) : Tame s (readAttributes index s) :=
  tame_readUntil (tame_readAttribute index) s

theorem tame_readLayers (index : Nat) (s : List Char) : Tame s (readLayers index s) :=
  tame_readUntil (fun s => .within (tame_readLayer s).suffix _) s

theorem tame_readRule (s : List Char) : Tame s (readRule s) := by
  refine (Tame.within (tame_readInteger s).suffix .ruleIndex).bind fun index s _ => ?_
  refine (tame_needChar '[' _).behind.bind fun _ s _ => ?_
  refine (tame_readAnchors index s).bind fun anchors s _ => ?_
  refine (tame_readAttributes index s).bind fun attributes s _ => ?_
  exact (tame_readLayers index s).bind fun layers s _ => tame_ok (List.suffix_refl s) _

theorem tame_readSymbol (s : List Char) : Tame s (readSymbol s) :=
  .within (tame_readName s).suffix _

theorem tame_readNextSymbol (s : List Char) : Tame s (readNextSymbol s) :=
  (tame_needChar ',' s).bind fun _ _ _ => (tame_readSymbol _).behind

theorem tame_readSymbols (s : List Char) : Tame s (readSymbols s) := by
  unfold readSymbols
  split
  · exact tame_ok (suffix_of_after? ‹_›) []
  · refine (tame_readSymbol _).behind.bind fun first s _ => ?_
    exact (tame_readUntil tame_readNextSymbol s).bind fun more s _ =>
      tame_ok (List.suffix_refl s) (first :: more)

theorem tame_readStatement (s : List Char) : Tame s (readStatement s) := by
  refine (tame_readName s).bind fun keyword s _ => ?_
  dsimp only
  split
  · exact (tame_readSymbols _).behind.bind fun symbols s _ => tame_ok (List.suffix_refl s) _
  · exact (tame_readRule _).behind.bind fun r s _ => tame_ok (List.suffix_refl s) _
  · exact tame_error nofun

theorem tame_readStatements (s : List Char) : Tame s (readStatements s) := by
  induction hn : s.length using Nat.strongRecOn generalizing s with
  | _ n ih =>
      by_cases hend : skipLayout s = []
      · rw [readStatements_nil hend]
        exact tame_ok (List.nil_suffix) []
      · rw [readStatements_eq hend]
        refine (tame_readStatement _).behind.bind fun statement rest hread => ?_
        have hlt := Nat.lt_of_lt_of_le (readStatement_lt hread) (length_skipLayout_le s)
        exact (ih rest.length (hn ▸ hlt) rest rfl).bind fun statements tail _ =>
          tame_ok (List.suffix_refl tail) (statement :: statements)

end Tame

inductive IsReader : {α : Type} → (List Char → Reading α) → Prop where
  | char (c : Char) : IsReader (needChar c)
  | run (lexeme : Lexeme) (p : Char → Bool) : IsReader (needRun lexeme p)
  | name : IsReader readName
  | integer : IsReader readInteger
  | decimal : IsReader readDecimal
  | address : IsReader readAddress
  | word : IsReader readWord
  | entry : IsReader readEntry
  | arrow : IsReader needArrow
  | entries (g : Address) : IsReader (readEntries g)
  | layer : IsReader readLayer
  | ruleAttribute (index : Nat) : IsReader (readAttribute index)
  | anchors (index : Nat) : IsReader (readAnchors index)
  | attributes (index : Nat) : IsReader (readAttributes index)
  | layers (index : Nat) : IsReader (readLayers index)
  | rule : IsReader readRule
  | symbol : IsReader readSymbol
  | nextSymbol : IsReader readNextSymbol
  | symbols : IsReader readSymbols
  | statement : IsReader readStatement
  | statements : IsReader readStatements

theorem IsReader.tame {reader : List Char → Reading α} (h : IsReader reader) (s : List Char) :
    Tame s (reader s) := by
  cases h with
  | char c => exact tame_needChar c s
  | run lexeme p => exact tame_needRun lexeme p s
  | name => exact tame_readName s
  | integer => exact tame_readInteger s
  | decimal => exact tame_readDecimal s
  | address => exact tame_readAddress s
  | word => exact tame_readWord s
  | entry => exact tame_readEntry s
  | arrow => exact tame_needArrow s
  | entries g => exact tame_readEntries g s
  | layer => exact tame_readLayer s
  | ruleAttribute index => exact tame_readAttribute index s
  | anchors index => exact tame_readAnchors index s
  | attributes index => exact tame_readAttributes index s
  | layers index => exact tame_readLayers index s
  | rule => exact tame_readRule s
  | symbol => exact tame_readSymbol s
  | nextSymbol => exact tame_readNextSymbol s
  | symbols => exact tame_readSymbols s
  | statement => exact tame_readStatement s
  | statements => exact tame_readStatements s

/-! ## Loops -/

/-- A loop over items, which skips layout before each of them. -/
structure Loop (α : Type) where
  /-- What is left behind the end of the loop, where that comes next. -/
  ends : List Char → Option (List Char)
  /-- How the next item is read, where others were read before. -/
  item : List α → List Char → Reading α

namespace Loop

/-- How often the loop goes on from a text, with some items read, and what it comes to. -/
inductive Runs (loop : Loop α) : List α → List Char → Nat → Reading (List α) → Prop where
  | ends {items : List α} {s rest : List Char} (hends : loop.ends s = some rest) :
      Runs loop items s 0 (.ok (items, rest))
  | fails {items : List α} {s : List Char} {e : ReadError} (hends : loop.ends s = none)
      (hitem : loop.item items (skipLayout s) = .error e) : Runs loop items s 0 (.error e)
  | goesOn {items : List α} {s rest : List Char} {a : α} {n : Nat} {outcome : Reading (List α)}
      (hends : loop.ends s = none) (hitem : loop.item items (skipLayout s) = .ok (a, rest))
      (hrest : Runs loop (items ++ [a]) rest n outcome) : Runs loop items s (n + 1) outcome

/-- Whether every item that the loop reads takes something from the text. -/
def Progresses (loop : Loop α) : Prop :=
  ∀ items s a rest, loop.ends s = none → loop.item items (skipLayout s) = .ok (a, rest) →
    rest <:+ s ∧ rest.length < s.length

theorem progresses_of_readers {loop : Loop α} (htame : ∀ items s, Tame s (loop.item items s))
    (hshrinks : ∀ items, Shrinks (loop.item items)) : loop.Progresses := by
  intro items s a rest _ hitem
  exact ⟨(htame items _).behind.suffix hitem,
    Nat.lt_of_lt_of_le (hshrinks items _ _ _ hitem) (length_skipLayout_le s)⟩

def upTo (close : Char) (item : List Char → Reading α) : Loop α :=
  ⟨after? close, fun _ => item⟩

/-- The loop over start symbols, where a comma stands before each but the first. -/
def symbols : Loop String :=
  ⟨after? ';', fun
    | [] => readSymbol
    | _ :: _ => readNextSymbol⟩

def statements : Loop Statement :=
  ⟨fun s => if (skipLayout s).isEmpty then some (skipLayout s) else none, fun _ => readStatement⟩

end Loop

/-- The loops of the format, each with the reader that runs it. -/
inductive IsLoop : {α : Type} → Loop α → (List Char → Reading (List α)) → Prop where
  | entries (g : Address) :
      IsLoop (.upTo ';' fun s => within (.entry g) (readEntry s)) (readEntries g)
  | anchors (index : Nat) :
      IsLoop (.upTo ']' fun s => within (.anchor index) (readWord s)) (readAnchors index)
  | attributes (index : Nat) :
      IsLoop (.upTo '\x7b' (readAttribute index)) (readAttributes index)
  | layers (index : Nat) :
      IsLoop (.upTo '\x7d' fun s => within (.body index) (readLayer s)) (readLayers index)
  | symbols : IsLoop .symbols readSymbols
  | statements : IsLoop .statements readStatements

theorem IsLoop.progresses {loop : Loop α} {reader : List Char → Reading (List α)}
    (h : IsLoop loop reader) : loop.Progresses := by
  cases h with
  | entries g =>
      exact Loop.progresses_of_readers (fun _ s => .within (tame_readEntry s).suffix _)
        fun _ _ _ _ h => readEntry_lt (within_eq_ok.1 h)
  | anchors index =>
      exact Loop.progresses_of_readers (fun _ s => .within (tame_readWord s).suffix _)
        fun _ _ _ _ h => readWord_lt (within_eq_ok.1 h)
  | attributes index =>
      exact Loop.progresses_of_readers (fun _ => tame_readAttribute index)
        fun _ _ _ _ h => readAttribute_lt h
  | layers index =>
      exact Loop.progresses_of_readers (fun _ s => .within (tame_readLayer s).suffix _)
        fun _ _ _ _ h => readLayer_lt (within_eq_ok.1 h)
  | symbols =>
      refine Loop.progresses_of_readers (fun known => ?_) fun known => ?_
      · cases known with
        | nil => exact tame_readSymbol
        | cons first more => exact tame_readNextSymbol
      · cases known with
        | nil => exact fun _ _ _ h => readName_lt (within_eq_ok.1 h)
        | cons first more => exact fun _ _ _ h => readNextSymbol_lt h
  | statements =>
      exact Loop.progresses_of_readers (fun _ => tame_readStatement)
        fun _ _ _ _ h => readStatement_lt h

def continueWith (items : List α) (x : Reading (List α)) : Reading (List α) :=
  x.map fun result => (items ++ result.1, result.2)

theorem continueWith_nil (x : Reading (List α)) : continueWith [] x = x := by
  cases x <;> rfl

theorem continueWith_cons (items : List α) (a : α) (x : Reading (List α)) :
    continueWith items (x.bind fun more => .ok (a :: more.1, more.2)) =
      continueWith (items ++ [a]) x := by
  cases x <;> simp [continueWith, Except.map, Except.bind]

/-- From a number of items on, a loop does what a reader of all items does. -/
theorem exists_runs_readUntil {close : Char} {item : List Char → Reading α}
    (shrinks : Shrinks item) {loop : Loop α} (hends : loop.ends = after? close) {k : Nat}
    (hitem : ∀ items, k ≤ items.length → loop.item items = item) (s : List Char)
    (items : List α) (hk : k ≤ items.length) : ∃ n, n ≤ s.length ∧
      loop.Runs items s n (continueWith items (readUntil close item shrinks s)) := by
  induction hn : s.length using Nat.strongRecOn generalizing s items with
  | _ n ih =>
      cases hafter : after? close s with
      | some rest =>
          rw [readUntil_close hafter, continueWith, Except.map, List.append_nil]
          exact ⟨0, Nat.zero_le _, .ends (hends ▸ hafter)⟩
      | none =>
          rw [readUntil_eq hafter]
          cases hread : item (skipLayout s) with
          | error e => exact ⟨0, Nat.zero_le _, .fails (hends ▸ hafter) (hitem items hk ▸ hread)⟩
          | ok result =>
              obtain ⟨a, rest⟩ := result
              have hlt := Nat.lt_of_lt_of_le (shrinks _ _ _ hread) (length_skipLayout_le s)
              obtain ⟨m, hm, hruns⟩ := ih rest.length (hn ▸ hlt) rest (items ++ [a])
                (by rw [List.length_append]; omega) rfl
              refine ⟨m + 1, by omega, .goesOn (hends ▸ hafter) (hitem items hk ▸ hread) ?_⟩
              rw [Except.bind, continueWith_cons]
              exact hruns

theorem exists_runs_upTo {close : Char} {item : List Char → Reading α} (shrinks : Shrinks item)
    (s : List Char) : ∃ n, n ≤ s.length ∧
      (Loop.upTo close item).Runs [] s n (readUntil close item shrinks s) := by
  have hitem : ∀ items : List α, 0 ≤ items.length → (Loop.upTo close item).item items = item :=
    fun _ _ => rfl
  have hruns := exists_runs_readUntil shrinks rfl hitem s [] (Nat.le_refl 0)
  rwa [continueWith_nil] at hruns

theorem exists_runs_symbols (s : List Char) : ∃ n, n ≤ s.length ∧
    Loop.symbols.Runs [] s n (readSymbols s) := by
  unfold readSymbols
  split
  · exact ⟨0, Nat.zero_le _, .ends ‹_›⟩
  · rename_i hafter
    cases hread : readSymbol (skipLayout s) with
    | error e => exact ⟨0, Nat.zero_le _, .fails hafter hread⟩
    | ok result =>
        obtain ⟨first, rest⟩ := result
        have hlt := Nat.lt_of_lt_of_le (readName_lt (within_eq_ok.1 hread))
          (length_skipLayout_le s)
        have hitem : ∀ known : List String, 1 ≤ known.length →
            Loop.symbols.item known = readNextSymbol := fun known hknown => by
          cases known with
          | nil => cases hknown
          | cons a as => rfl
        obtain ⟨n, hn, hruns⟩ := exists_runs_readUntil (fun _ _ _ h => readNextSymbol_lt h) rfl
          hitem rest [first] (Nat.le_refl 1)
        exact ⟨n + 1, by omega, .goesOn hafter hread hruns⟩

theorem exists_runs_statements (s : List Char) (known : List Statement) : ∃ n, n ≤ s.length ∧
    Loop.statements.Runs known s n (continueWith known (readStatements s)) := by
  induction hn : s.length using Nat.strongRecOn generalizing s known with
  | _ n ih =>
      by_cases hend : skipLayout s = []
      · rw [readStatements_nil hend, continueWith, Except.map, List.append_nil]
        exact ⟨0, Nat.zero_le _, .ends (by simp [Loop.statements, hend])⟩
      · have hends : Loop.statements.ends s = none := by simp [Loop.statements, hend]
        rw [readStatements_eq hend]
        cases hread : readStatement (skipLayout s) with
        | error e => exact ⟨0, Nat.zero_le _, .fails hends hread⟩
        | ok result =>
            obtain ⟨statement, rest⟩ := result
            have hlt := Nat.lt_of_lt_of_le (readStatement_lt hread) (length_skipLayout_le s)
            obtain ⟨m, hm, hruns⟩ := ih rest.length (hn ▸ hlt) rest (known ++ [statement]) rfl
            refine ⟨m + 1, by omega, .goesOn hends hread ?_⟩
            rw [Except.bind, continueWith_cons]
            exact hruns

/-- From every text a loop comes to an end, and to what its reader gives. -/
theorem IsLoop.exists_runs {loop : Loop α} {reader : List Char → Reading (List α)}
    (h : IsLoop loop reader) (s : List Char) :
    ∃ n, n ≤ s.length ∧ loop.Runs [] s n (reader s) := by
  cases h with
  | entries g => exact exists_runs_upTo _ s
  | anchors index => exact exists_runs_upTo _ s
  | attributes index => exact exists_runs_upTo _ s
  | layers index => exact exists_runs_upTo _ s
  | symbols => exact exists_runs_symbols s
  | statements =>
      have hruns := exists_runs_statements s []
      rwa [continueWith_nil] at hruns

/-! ## Whole texts -/

namespace Grammar

theorem eq_defect_of_startsFor {statements : List Statement} {first : Rule Float} {e : ReadError}
    (h : startsFor statements first = .error e) : ∃ d, e = .defect d := by
  unfold startsFor at h
  split at h
  · cases h
  · split at h <;> cases h
    exact ⟨_, rfl⟩

theorem ofStatements_ne_unexpectedInput (statements : List Statement) (rest : List Char) :
    ofStatements statements ≠ .error (.unexpectedInput rest) := by
  unfold ofStatements
  split
  · nofun
  · split
    · rename_i hstarts
      obtain ⟨d, rfl⟩ := eq_defect_of_startsFor hstarts
      nofun
    · split <;> nofun

theorem read_ne_unexpectedInput (text : String) (rest : List Char) :
    read text ≠ .error (.unexpectedInput rest) := by
  unfold read ofChars
  split
  · rename_i e hread
    exact fun h => (tame_readStatements text.toList).expected (Except.error.inj h ▸ hread)
  · exact ofStatements_ne_unexpectedInput _ rest
  · -- nothing is left behind statements, so this is not reached
    rename_i hleft hread
    exact absurd (rest_of_readStatements hread) hleft

end Grammar

/--
For every text: what a reader leaves is an end of its text.  A loop over items that goes on
takes something from the text, so it goes on as often as there are characters at most, and
comes to what its reader gives.  Statements are read up to the end of the text or not at all,
so no text is refused for input that was not expected.
-/
theorem reading_ends :
    (∀ (s : List Char), skipLayout s <:+ s ∧ ∀ c rest, after? c s = some rest → rest <:+ s) ∧
    (∀ (α : Type) (reader : List Char → Reading α), IsReader reader →
      ∀ s a rest, reader s = .ok (a, rest) → rest <:+ s) ∧
    (∀ (α : Type) (loop : Loop α) (reader : List Char → Reading (List α)), IsLoop loop reader →
      loop.Progresses ∧ ∀ s, ∃ n, n ≤ s.length ∧ loop.Runs [] s n (reader s)) ∧
    (∀ s statements rest, readStatements s = .ok (statements, rest) → rest = []) ∧
    ∀ text rest, Grammar.read text ≠ .error (.unexpectedInput rest) :=
  ⟨fun s => ⟨skipLayout_suffix s, fun _ _ h => suffix_of_after? h⟩,
    fun _ _ hreader s _ _ h => (hreader.tame s).suffix h,
    fun _ _ _ hloop => ⟨hloop.progresses, hloop.exists_runs⟩,
    fun _ _ _ h => rest_of_readStatements h, Grammar.read_ne_unexpectedInput⟩

end TreeInsertion
