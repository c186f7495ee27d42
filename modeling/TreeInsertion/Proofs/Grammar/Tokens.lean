import TreeInsertion.Grammar.Reader.Token
import TreeInsertion.Proofs.Decimal.RoundTrip

/-!
# Tokens and their text

A token is read as far as its characters go, so it is read back where none of them comes
next.  Every token but a quoted word begins with a character of a name, and no such
character is blank, which keeps layout and tokens apart.
-/

namespace TreeInsertion

/-! ## Characters -/

namespace CharSet

def points (ranges : List (Nat × Nat)) : List Nat :=
  ranges.flatMap fun range => List.range' range.1 (range.2 + 1 - range.1)

theorem mem_points_of_covers {ranges : List (Nat × Nat)} {n : Nat}
    (h : covers ranges n = true) : n ∈ points ranges := by
  induction ranges with
  | nil => cases h
  | cons range rest ih =>
      obtain ⟨first, last⟩ := range
      rw [points, List.flatMap_cons, List.mem_append, List.mem_range'_1]
      simp only [covers] at h
      split at h
      · cases h
      · split at h
        · left
          dsimp only
          omega
        · exact .inr (ih h)

end CharSet

theorem isNameChar_of_isBlank {c : Char} (h : isBlank c = true) : isNameChar c = false := by
  -- Blank characters are few, so they are tried one by one.
  have hall : ∀ n ∈ CharSet.points CharSet.blank.ranges, isNameChar (Char.ofNat n) = false := by
    decide +kernel
  have hc := hall c.toNat (CharSet.mem_points_of_covers h)
  rwa [Char.ofNat_toNat] at hc

theorem isBlank_of_isNameChar {c : Char} (h : isNameChar c = true) : isBlank c = false := by
  cases hblank : isBlank c with
  | false => rfl
  | true => exact absurd (h.symm.trans (isNameChar_of_isBlank hblank)) (by decide)

theorem isNameChar_of_isDigit {c : Char} (h : c.isDigit = true) : isNameChar c = true := by
  simp [isNameChar, h]

theorem ne_of_isNameChar {c d : Char} (hc : isNameChar c = true) (hd : isNameChar d = false) :
    c ≠ d := by
  rintro rfl
  exact absurd (hc.symm.trans hd) (by decide)

/-! ## Layout -/

theorem skipLayout_cons {c : Char} (hslash : c ≠ '/') (hblank : isBlank c = false)
    (s : List Char) : skipLayout (c :: s) = c :: s := by
  unfold skipLayout
  split
  · simp_all
  · simp_all
  · simp_all

theorem skipLayout_blank {c : Char} (hblank : isBlank c = true) (s : List Char) :
    skipLayout (c :: s) = skipLayout s := by
  have hslash : c ≠ '/' := by
    rintro rfl
    exact absurd hblank (by decide)
  conv_lhs => unfold skipLayout
  split
  · simp_all
  · simp_all
  · simp_all

/-- Whether the next character is the first one of a token with a text of its own. -/
def Opens (s : List Char) : Prop :=
  ∃ c rest, s = c :: rest ∧ (c = '"' ∨ isNameChar c = true)

theorem Opens.skipLayout {s : List Char} (h : Opens s) : skipLayout s = s := by
  obtain ⟨c, rest, rfl, rfl | hc⟩ := h
  · rfl
  · exact skipLayout_cons (ne_of_isNameChar hc (by decide)) (isBlank_of_isNameChar hc) rest

theorem Opens.append {s : List Char} (h : Opens s) (rest : List Char) : Opens (s ++ rest) := by
  obtain ⟨c, tail, rfl, hc⟩ := h
  exact ⟨c, tail ++ rest, rfl, hc⟩

theorem opens_of_isNameChar {run : List Char} (hne : run ≠ [])
    (hrun : ∀ c ∈ run, isNameChar c = true) : Opens run := by
  cases run with
  | nil => exact absurd rfl hne
  | cons c tail => exact ⟨c, tail, rfl, .inr (hrun c List.mem_cons_self)⟩

theorem skipLayout_opens {text : List Char} (h : Opens text) (s : List Char) :
    skipLayout (' ' :: (text ++ s)) = text ++ s :=
  (h.append s).skipLayout

theorem opens_of_isDigit {run : List Char} (hne : run ≠ []) (hrun : ∀ c ∈ run, c.isDigit = true) :
    Opens run :=
  opens_of_isNameChar hne fun c hc => isNameChar_of_isDigit (hrun c hc)

/-! ## Runs of characters -/

/-- Whether the next character, if there is one, is not in `p`. -/
def Ends (p : Char → Bool) (s : List Char) : Prop :=
  ∀ c ∈ s.head?, p c = false

theorem ends_cons {p : Char → Bool} {c : Char} {s : List Char} :
    Ends p (c :: s) ↔ p c = false := by
  simp [Ends]

theorem Ends.mono {p q : Char → Bool} {s : List Char} (h : Ends q s)
    (hpq : ∀ c, p c = true → q c = true) : Ends p s := by
  intro c hc
  cases hp : p c with
  | false => rfl
  | true => exact absurd ((hpq c hp).symm.trans (h c hc)) (by decide)

variable {p : Char → Bool} {run rest : List Char}

theorem takeWhile_run (hrun : ∀ c ∈ run, p c = true) (hrest : Ends p rest) :
    (run ++ rest).takeWhile p = run := by
  rw [List.takeWhile_append_of_pos hrun]
  cases rest with
  | nil => simp
  | cons c tail =>
      rw [List.takeWhile_cons_of_neg (by simp [ends_cons.1 hrest]), List.append_nil]

theorem dropWhile_run (hrun : ∀ c ∈ run, p c = true) (hrest : Ends p rest) :
    (run ++ rest).dropWhile p = rest := by
  rw [List.dropWhile_append_of_pos hrun]
  cases rest with
  | nil => rfl
  | cons c tail => rw [List.dropWhile_cons_of_neg (by simp [ends_cons.1 hrest])]

theorem needRun_run (lexeme : Lexeme) (hne : run ≠ []) (hrun : ∀ c ∈ run, p c = true)
    (hrest : Ends p rest) : needRun lexeme p (run ++ rest) = .ok (run, rest) := by
  rw [needRun, takeWhile_run hrun hrest, dropWhile_run hrun hrest]
  exact if_neg (by simp [hne])

/-! ## Names and numbers -/

/-- Whether there is a next character, and it continues no token. -/
def Delimited (s : List Char) : Prop :=
  ∃ c rest, s = c :: rest ∧ isNameChar c = false ∧ c ∉ ['.', '!', '*']

theorem Delimited.endsName {s : List Char} (h : Delimited s) : Ends isNameChar s := by
  obtain ⟨c, rest, rfl, hc, -⟩ := h
  exact ends_cons.2 hc

/-- The characters that an entry can go on with after a name: more of the name, or a mark. -/
def continuesEntry (c : Char) : Bool :=
  isNameChar c || c == '!' || c == '*'

theorem Delimited.endsEntry {s : List Char} (h : Delimited s) : Ends continuesEntry s := by
  obtain ⟨c, rest, rfl, hc, hmark⟩ := h
  rw [ends_cons, continuesEntry, hc]
  simp_all

theorem Delimited.endsNumber {s : List Char} (h : Delimited s) : Ends Char.isDigit s :=
  h.endsName.mono fun _ => isNameChar_of_isDigit

theorem delimited_blank (s : List Char) : Delimited (' ' :: s) :=
  ⟨' ', s, rfl, by decide, by decide⟩

theorem delimited_semicolon (s : List Char) : Delimited (';' :: s) :=
  ⟨';', s, rfl, by decide, by decide⟩

theorem delimited_colon (s : List Char) : Delimited (':' :: s) :=
  ⟨':', s, rfl, by decide, by decide⟩

def IsName (name : String) : Prop :=
  name.toList ≠ [] ∧ ∀ c ∈ name.toList, isNameChar c = true

instance (name : String) : Decidable (IsName name) :=
  decidable_of_iff (name.toList ≠ [] ∧ name.toList.all isNameChar = true)
    (and_congr_right' List.all_eq_true)

theorem IsName.opens {name : String} (h : IsName name) : Opens name.toList :=
  opens_of_isNameChar h.1 h.2

theorem readName_name {name : String} (h : IsName name) {rest : List Char}
    (hrest : Ends isNameChar rest) : readName (name.toList ++ rest) = .ok (name, rest) := by
  rw [readName, needRun_run .name h.1 h.2 hrest]
  simp [within]

theorem readName_keyword (keyword : String) (h : IsName keyword) (s : List Char) :
    readName (keyword.toList ++ ' ' :: s) = .ok (keyword, ' ' :: s) :=
  readName_name h (delimited_blank s).endsName

theorem ofDigits_repr (n : Nat) : Decimal.ofDigits n.repr.toList = n := by
  rw [Nat.toList_repr, Decimal.ofDigits_toDigits]

theorem repr_ne_nil (n : Nat) : n.repr.toList ≠ [] := by
  rw [Nat.toList_repr]
  exact Nat.toDigits_ne_nil

theorem isDigit_of_mem_repr {n : Nat} {c : Char} (hc : c ∈ n.repr.toList) : c.isDigit = true := by
  rw [Nat.toList_repr] at hc
  exact Nat.isDigit_of_mem_toDigits (by decide) (by decide) hc

theorem opens_repr (n : Nat) : Opens n.repr.toList :=
  opens_of_isDigit (repr_ne_nil n) fun _ => isDigit_of_mem_repr

theorem wordOfDigits_repr {n : Nat} (hn : n < UInt64.size) :
    wordOfDigits n.repr.toList = .ok n := by
  rw [wordOfDigits, ofDigits_repr]
  exact if_pos hn

theorem readInteger_repr {n : Nat} (hn : n < UInt64.size) {rest : List Char}
    (hrest : Delimited rest) : readInteger (n.repr.toList ++ rest) = .ok (n, rest) := by
  rw [readInteger, needRun_run .integer (repr_ne_nil n) (fun _ => isDigit_of_mem_repr)
    hrest.endsNumber]
  simp only [wordOfDigits_repr hn]

theorem takeFraction_fraction {fraction rest : List Char} (hne : fraction ≠ [])
    (hfraction : ∀ c ∈ fraction, c.isDigit = true) (hrest : Ends Char.isDigit rest) :
    Decimal.takeFraction ('.' :: (fraction ++ rest)) = (fraction, rest) := by
  simp [Decimal.takeFraction, takeWhile_run hfraction hrest, dropWhile_run hfraction hrest, hne]

theorem takeFraction_delimited {s : List Char} (h : Delimited s) :
    Decimal.takeFraction s = ([], s) := by
  obtain ⟨c, rest, rfl, -, hmark⟩ := h
  rw [Decimal.takeFraction]
  intro tail heq
  cases heq
  exact hmark (by decide)

theorem takeExponent_delimited {s : List Char} (h : Delimited s) :
    Decimal.takeExponent s = (0, s) := by
  obtain ⟨c, rest, rfl, hc, -⟩ := h
  have hsmall : c ≠ 'e' := by
    rintro rfl
    exact absurd hc (by decide)
  have hlarge : c ≠ 'E' := by
    rintro rfl
    exact absurd hc (by decide)
  simp [Decimal.takeExponent, hsmall, hlarge]

/-- A finite number without a sign is read back. -/
theorem readDecimal_render {x : Float} (hx : x.toBits.toNat < Decimal.infinity)
    {rest : List Char} (hrest : Delimited rest) :
    readDecimal ((Decimal.render x).toList ++ rest) = .ok (x, rest) := by
  obtain ⟨whole, fraction, htext, hne, hdigits, hvalue⟩ := Decimal.render_eq_layout hx
  have hwhole (c : Char) (hc : c ∈ whole) : c.isDigit = true :=
    hdigits c (List.mem_append_left _ hc)
  have hfraction (c : Char) (hc : c ∈ fraction) : c.isDigit = true :=
    hdigits c (List.mem_append_right _ hc)
  rw [htext, readDecimal]
  cases fraction with
  | nil =>
      have hsplit : Decimal.layout whole [] ++ rest = whole ++ rest := rfl
      rw [hsplit, needRun_run .decimal hne hwhole hrest.endsNumber]
      simp only [takeFraction_delimited hrest, takeExponent_delimited hrest, hvalue]
  | cons c cs =>
      have hpoint : Ends Char.isDigit ('.' :: ((c :: cs) ++ rest)) := ends_cons.2 rfl
      have hsplit : Decimal.layout whole (c :: cs) ++ rest =
          whole ++ '.' :: ((c :: cs) ++ rest) :=
        List.append_assoc _ _ _
      rw [hsplit, needRun_run .decimal hne hwhole hpoint]
      simp only [takeFraction_fraction (List.cons_ne_nil c cs) hfraction hrest.endsNumber,
        takeExponent_delimited hrest, hvalue]

theorem Decimal.opens_render {x : Float} (hx : x.toBits.toNat < infinity) :
    Opens (render x).toList := by
  obtain ⟨whole, fraction, htext, hne, hdigits, -⟩ := render_eq_layout hx
  have hwhole := opens_of_isDigit hne fun c hc => hdigits c (List.mem_append_left _ hc)
  rw [htext]
  cases fraction with
  | nil => exact hwhole
  | cons c cs => exact hwhole.append _

/-! ## Addresses -/

/-- All parts but the first have the separator before them. -/
theorem intercalate_cons {α : Type} (sep a : List α) (as : List (List α)) :
    sep.intercalate (a :: as) = a ++ as.flatMap fun b => sep ++ b := by
  induction as generalizing a with
  | nil => simp
  | cons b bs ih =>
      rw [List.intercalate_cons_cons, ih b, List.flatMap_cons, List.append_assoc, List.append_assoc]

theorem Address.opens {g : Address} (hne : g.path ≠ []) : Opens g.render.toList := by
  obtain ⟨path⟩ := g
  cases path with
  | nil => exact absurd rfl hne
  | cons first steps =>
      rw [render, String.toList_intercalate, List.map_cons, List.map_cons, intercalate_cons]
      exact (opens_repr first).append _

theorem ends_moreSteps (steps : List Nat) {rest : List Char} (hrest : Delimited rest) :
    Ends Char.isDigit ((steps.flatMap fun i => '.' :: i.repr.toList) ++ rest) := by
  cases steps with
  | nil => exact hrest.endsNumber
  | cons i is => exact ends_cons.2 rfl

theorem moreSteps_steps (steps : List Nat) {rest : List Char} (hrest : Delimited rest) :
    moreSteps ((steps.flatMap fun i => '.' :: i.repr.toList) ++ rest) =
      (steps.map fun i => i.repr.toList, rest) := by
  induction steps with
  | nil =>
      obtain ⟨c, tail, rfl, -, hmark⟩ := hrest
      rw [List.flatMap_nil, List.nil_append, moreSteps]
      · rfl
      · intro rest heq
        cases heq
        exact hmark (by decide)
  | cons i is ih =>
      have hends := ends_moreSteps is hrest
      have hdigits : ∀ c ∈ i.repr.toList, c.isDigit = true := fun _ => isDigit_of_mem_repr
      rw [List.flatMap_cons, List.append_assoc, List.cons_append, moreSteps,
        takeWhile_run hdigits hends, dropWhile_run hdigits hends, if_neg (by simp), ih]
      rfl

theorem mapM_wordOfDigits {path : List Nat} (hpath : ∀ i ∈ path, i < UInt64.size) :
    (path.map fun i => i.repr.toList).mapM wordOfDigits = .ok path := by
  induction path with
  | nil => rfl
  | cons i is ih =>
      obtain ⟨hi, his⟩ := List.forall_mem_cons.1 hpath
      rw [List.map_cons, List.mapM_cons, wordOfDigits_repr hi, ih his]
      rfl

/-- An address is read back if its steps are words of 64 bits. -/
theorem readAddress_render {g : Address} (hne : g.path ≠ [])
    (hpath : ∀ i ∈ g.path, i < UInt64.size) {rest : List Char} (hrest : Delimited rest) :
    readAddress (g.render.toList ++ rest) = .ok (g, rest) := by
  obtain ⟨path⟩ := g
  cases path with
  | nil => exact absurd rfl hne
  | cons first steps =>
      have htext : (Address.render ⟨first :: steps⟩).toList ++ rest =
          first.repr.toList ++ ((steps.flatMap fun i => '.' :: i.repr.toList) ++ rest) := by
        rw [Address.render, String.toList_intercalate, List.map_cons, List.map_cons,
          intercalate_cons, List.map_map, List.flatMap_map, List.append_assoc]
        rfl
      rw [htext, readAddress, needRun_run .address (repr_ne_nil first)
        (fun _ => isDigit_of_mem_repr) (ends_moreSteps steps hrest)]
      have hsteps := mapM_wordOfDigits hpath
      rw [List.map_cons] at hsteps
      simp only [within, moreSteps_steps steps hrest, hsteps]

/-! ## Words and entries -/

/-- A word that the format can quote, or name where it stands bare. -/
def Word.Writable (word : String) : Prop :=
  '"' ∉ word.toList ∧ (Word.isBare word = true → ∀ c ∈ word.toList, isNameChar c = true)

instance (word : String) : Decidable (Word.Writable word) :=
  decidable_of_iff
    ('"' ∉ word.toList ∧ (Word.isBare word = true → word.toList.all isNameChar = true))
    (and_congr_right' (imp_congr_right fun _ => List.all_eq_true))

theorem Word.Writable.isName {word : String} (h : Word.Writable word)
    (hbare : Word.isBare word = true) : IsName word := by
  refine ⟨fun hnil => ?_, h.2 hbare⟩
  rw [Word.isBare, hnil] at hbare
  cases hbare

theorem Word.render_bare {word : String} (h : Word.isBare word = true) :
    Word.render word = word :=
  if_pos h

theorem Word.toList_render_quoted {word : String} (h : Word.isBare word = false) :
    (Word.render word).toList = '"' :: (word.toList ++ ['"']) := by
  rw [Word.render, if_neg (by simp [h])]
  simp

theorem Word.Writable.opens {word : String} (h : Word.Writable word) :
    Opens (Word.render word).toList := by
  cases hbare : Word.isBare word with
  | false => exact ⟨'"', _, Word.toList_render_quoted hbare, .inl rfl⟩
  | true =>
      rw [Word.render_bare hbare]
      exact (h.isName hbare).opens

theorem readWord_quoted {word : String} (h : '"' ∉ word.toList) (rest : List Char) :
    readWord ('"' :: (word.toList ++ '"' :: rest)) = .ok (word, rest) := by
  have hword : ∀ c ∈ word.toList, (c != '"') = true := by
    intro c hc
    exact bne_iff_ne.2 fun heq => h (heq ▸ hc)
  have hquote : Ends (· != '"') ('"' :: rest) := ends_cons.2 rfl
  rw [readWord]
  simp only [dropWhile_run hword hquote, takeWhile_run hword hquote, String.ofList_toList]

theorem cons_quote_ne {name : String} (h : IsName name) (rest tail : List Char) :
    name.toList ++ rest ≠ '"' :: tail := by
  obtain ⟨hne, hname⟩ := h
  cases hchars : name.toList with
  | nil => exact absurd hchars hne
  | cons c cs =>
      rw [hchars] at hname
      intro heq
      exact ne_of_isNameChar (hname c List.mem_cons_self) (by decide) (List.cons.inj heq).1

theorem readWord_name {word : String} (h : IsName word) {rest : List Char}
    (hrest : Ends isNameChar rest) : readWord (word.toList ++ rest) = .ok (word, rest) := by
  rw [readWord]
  · exact readName_name h hrest
  · exact fun tail heq => cons_quote_ne h rest tail heq

/-- A word is read back, bare or quoted. -/
theorem readWord_render {word : String} (h : Word.Writable word) {rest : List Char}
    (hrest : Ends isNameChar rest) :
    readWord ((Word.render word).toList ++ rest) = .ok (word, rest) := by
  cases hbare : Word.isBare word with
  | false =>
      rw [Word.toList_render_quoted hbare, List.cons_append, List.append_assoc]
      exact readWord_quoted h.1 rest
  | true =>
      rw [Word.render_bare hbare]
      exact readWord_name (h.isName hbare) hrest

namespace Entry

/--
An entry that the format can write: a word, or a symbol with a name, which is not that of a
word if nothing marks the entry.
-/
def Writable (e : Entry) : Prop :=
  match e.role with
  | .terminal => Word.Writable e.label
  | .nonterminal => IsName e.label ∧ e.label.toList.head?.any isLowercase = false
  | .substitution => IsName e.label
  | .foot => IsName e.label

instance : (e : Entry) → Decidable e.Writable
  | ⟨.terminal, label⟩ => inferInstanceAs (Decidable (Word.Writable label))
  | ⟨.nonterminal, label⟩ => inferInstanceAs (Decidable (IsName label ∧ _ = _))
  | ⟨.substitution, label⟩ => inferInstanceAs (Decidable (IsName label))
  | ⟨.foot, label⟩ => inferInstanceAs (Decidable (IsName label))

theorem Writable.opens {e : Entry} (h : e.Writable) : Opens e.render.toList := by
  obtain ⟨role, label⟩ := e
  cases role with
  | terminal => exact Word.Writable.opens h
  | nonterminal => exact h.1.opens
  | substitution =>
      rw [render, String.toList_append]
      exact (IsName.opens h).append _
  | foot =>
      rw [render, String.toList_append]
      exact (IsName.opens h).append _

end Entry

theorem Word.any_isLowercase {word : String} (h : Word.isBare word = true) :
    word.toList.head?.any isLowercase = true := by
  rw [Word.isBare] at h
  split at h
  · cases h
  · rename_i c cs hchars
    rw [hchars]
    exact (Bool.and_eq_true_iff.1 h).1

theorem readEntry_marked {name : String} (h : IsName name) {mark : Char} {role : Role}
    (hmark : mark = '!' ∧ role = .substitution ∨ mark = '*' ∧ role = .foot) (rest : List Char) :
    readEntry (name.toList ++ mark :: rest) = .ok (⟨role, name⟩, rest) := by
  rw [readEntry]
  · obtain ⟨rfl, rfl⟩ | ⟨rfl, rfl⟩ := hmark
    · rw [readName_name h (ends_cons.2 (by decide))]
      rfl
    · rw [readName_name h (ends_cons.2 (by decide))]
      rfl
  · exact fun tail heq => cons_quote_ne h _ tail heq

theorem readEntry_bare {name : String} (h : IsName name) {role : Role}
    (hrole : role = if name.toList.head?.any isLowercase then .terminal else .nonterminal)
    {rest : List Char} (hrest : Ends continuesEntry rest) :
    readEntry (name.toList ++ rest) = .ok (⟨role, name⟩, rest) := by
  have hread := readName_name h (hrest.mono fun c hc => by simp [continuesEntry, hc])
  rw [readEntry]
  · rw [hread, hrole]
    split
    · rename_i heq
      cases heq
    · rename_i heq
      cases heq
      exact absurd (ends_cons.1 hrest) (by decide)
    · rename_i heq
      cases heq
      exact absurd (ends_cons.1 hrest) (by decide)
    · rename_i heq
      cases heq
      split <;> rfl
  · exact fun tail heq => cons_quote_ne h _ tail heq

theorem readEntry_quoted {word : String} (h : '"' ∉ word.toList) (rest : List Char) :
    readEntry ('"' :: (word.toList ++ '"' :: rest)) = .ok (⟨.terminal, word⟩, rest) := by
  rw [readEntry, readWord_quoted h rest]

theorem readEntry_word {word : String} (h : Word.Writable word) {rest : List Char}
    (hrest : Ends continuesEntry rest) :
    readEntry ((Word.render word).toList ++ rest) = .ok (⟨.terminal, word⟩, rest) := by
  cases hbare : Word.isBare word with
  | false =>
      rw [Word.toList_render_quoted hbare, List.cons_append, List.append_assoc]
      exact readEntry_quoted h.1 rest
  | true =>
      rw [Word.render_bare hbare]
      exact readEntry_bare (h.isName hbare) (by rw [Word.any_isLowercase hbare]; rfl) hrest

/-- An entry is read back in its role. -/
theorem readEntry_render {e : Entry} (h : e.Writable) {rest : List Char} (hrest : Delimited rest) :
    readEntry (e.render.toList ++ rest) = .ok (e, rest) := by
  obtain ⟨role, label⟩ := e
  cases role with
  | terminal => exact readEntry_word h hrest.endsEntry
  | nonterminal =>
      obtain ⟨hname, hupper⟩ := h
      exact readEntry_bare hname (by rw [hupper]; rfl) hrest.endsEntry
  | substitution =>
      rw [Entry.render, String.toList_append, List.append_assoc]
      exact readEntry_marked h (.inl ⟨rfl, rfl⟩) rest
  | foot =>
      rw [Entry.render, String.toList_append, List.append_assoc]
      exact readEntry_marked h (.inr ⟨rfl, rfl⟩) rest

end TreeInsertion
