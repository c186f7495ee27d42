import TreeInsertion.Grammar.Reader.Statement
import TreeInsertion.Proofs.Grammar.Words

/-!
# Tokens with layout between them

A text is made of tokens with blank characters and comments between them.  Only quoted words
have such characters themselves, so layout is skipped up to the next token and no further.
-/

namespace TreeInsertion

/-! ## Layout and tokens -/

/-- Blank characters and comments, each of which is closed by the end of its line. -/
inductive IsLayout : List Char → Prop where
  | nil : IsLayout []
  | blank {c : Char} {g : List Char} (hc : isBlank c = true) (hg : IsLayout g) : IsLayout (c :: g)
  | comment {body g : List Char} (hbody : '\n' ∉ body) (hg : IsLayout g) :
      IsLayout ('/' :: '/' :: (body ++ '\n' :: g))

def IsRun (p : Char → Bool) (run : List Char) : Prop :=
  run ≠ [] ∧ ∀ c ∈ run, p c = true

instance (p : Char → Bool) (run : List Char) : Decidable (IsRun p run) :=
  decidable_of_iff (run ≠ [] ∧ run.all p = true) (and_congr_right' List.all_eq_true)

/-- An integer, a decimal, or more numbers with points between them. -/
def IsNumber (text : List Char) : Prop :=
  ∃ (whole : List Char) (steps : List (List Char)), IsRun Char.isDigit whole ∧
    (∀ step ∈ steps, IsRun Char.isDigit step) ∧
    text = whole ++ steps.flatMap fun step => '.' :: step

inductive IsToken : List Char → Prop where
  | name {run : List Char} (h : IsRun isNameChar run) : IsToken run
  | marked {run : List Char} {mark : Char} (h : IsRun isNameChar run)
      (hmark : mark = '!' ∨ mark = '*') : IsToken (run ++ [mark])
  | quoted {word : List Char} (h : '"' ∉ word) : IsToken ('"' :: (word ++ ['"']))
  | number {text : List Char} (h : IsNumber text) : IsToken text
  /-- A number with a power of ten. -/
  | power {text sign digits : List Char} {letter : Char} (h : IsNumber text)
      (hletter : letter = 'e' ∨ letter = 'E') (hsign : sign = [] ∨ sign = ['+'] ∨ sign = ['-'])
      (hdigits : IsRun Char.isDigit digits) : IsToken (text ++ letter :: (sign ++ digits))
  | sign {c : Char} (h : c ∈ ['[', ']', '\x7b', '\x7d', ':', ';', ',']) : IsToken [c]
  | arrow : IsToken ['-', '>']

/-- What follows a token: more tokens, each behind layout of its own, and layout at the end. -/
inductive Continues : List (List Char) → List Char → Prop where
  | stop {g : List Char} (hg : IsLayout g) : Continues [] g
  | token {g t : List Char} {ts : List (List Char)} {s : List Char} (hg : IsLayout g)
      (hne : g ≠ []) (ht : IsToken t) (hs : Continues ts s) : Continues (t :: ts) (g ++ (t ++ s))

/-- A text of the given tokens, with layout between them and maybe around them. -/
inductive IsText : List (List Char) → List Char → Prop where
  | layout {g : List Char} (hg : IsLayout g) : IsText [] g
  | tokens {g t : List Char} {ts : List (List Char)} {s : List Char} (hg : IsLayout g)
      (ht : IsToken t) (hs : Continues ts s) : IsText (t :: ts) (g ++ (t ++ s))

theorem continues_flatMap {g : List Char} (hg : IsLayout g) (hne : g ≠ [])
    {ts : List (List Char)} (hts : ∀ t ∈ ts, IsToken t) :
    Continues ts (ts.flatMap fun t => g ++ t) := by
  induction ts with
  | nil => exact .stop .nil
  | cons t ts ih =>
      obtain ⟨ht, hrest⟩ := List.forall_mem_cons.1 hts
      rw [List.flatMap_cons, List.append_assoc]
      exact .token hg hne ht (ih hrest)

/-- Tokens with the same layout before each of them make a text. -/
theorem isText_flatMap {g : List Char} (hg : IsLayout g) (hne : g ≠ []) {ts : List (List Char)}
    (hts : ∀ t ∈ ts, IsToken t) : IsText ts (ts.flatMap fun t => g ++ t) := by
  cases ts with
  | nil => exact .layout .nil
  | cons t ts =>
      obtain ⟨ht, hrest⟩ := List.forall_mem_cons.1 hts
      rw [List.flatMap_cons, List.append_assoc]
      exact .tokens hg ht (continues_flatMap hg hne hrest)

/-! ## Pieces of text -/

def isPlain (c : Char) : Bool :=
  !isBlank c && c != '/' && c != '"'

theorem isPlain_of_isNameChar {c : Char} (h : isNameChar c = true) : isPlain c = true := by
  have hslash : c ≠ '/' := ne_of_isNameChar h (by decide)
  have hquote : c ≠ '"' := ne_of_isNameChar h (by decide)
  simp [isPlain, isBlank_of_isNameChar h, hslash, hquote]

theorem isPlain_of_isDigit {c : Char} (h : c.isDigit = true) : isPlain c = true :=
  isPlain_of_isNameChar (isNameChar_of_isDigit h)

/-- The characters of tokens that are not characters of names. -/
def signs : List Char :=
  ['[', ']', '\x7b', '\x7d', ':', ';', ',', '.', '!', '*', '+', '>']

theorem isPlain_of_mem_signs {c : Char} (h : c ∈ signs) : isPlain c = true := by
  have hall : signs.all isPlain = true := by decide +kernel
  exact List.all_eq_true.1 hall c h

/-- A whole quoted word, or a part of another token. -/
inductive Piece : List Char → Prop where
  | plain {p : List Char} (h : ∀ c ∈ p, isPlain c = true) : Piece p
  | quoted {word : List Char} (h : '"' ∉ word) : Piece ('"' :: (word ++ ['"']))

theorem IsNumber.isPlain {text : List Char} (h : IsNumber text) :
    text ≠ [] ∧ ∀ c ∈ text, isPlain c = true := by
  obtain ⟨whole, steps, hwhole, hsteps, rfl⟩ := h
  refine ⟨List.append_ne_nil_of_left_ne_nil hwhole.1 _, fun c hc => ?_⟩
  rcases List.mem_append.1 hc with hc | hc
  · exact isPlain_of_isDigit (hwhole.2 c hc)
  · obtain ⟨step, hstep, hc⟩ := List.mem_flatMap.1 hc
    rcases List.mem_cons.1 hc with rfl | hc
    · exact isPlain_of_mem_signs (by decide)
    · exact isPlain_of_isDigit ((hsteps step hstep).2 c hc)

theorem IsToken.piece {t : List Char} (h : IsToken t) : t ≠ [] ∧ Piece t := by
  cases h with
  | name h => exact ⟨h.1, .plain fun c hc => isPlain_of_isNameChar (h.2 c hc)⟩
  | marked h hmark =>
      refine ⟨List.append_ne_nil_of_left_ne_nil h.1 _, .plain ?_⟩
      rw [List.forall_mem_append, List.forall_mem_singleton]
      refine ⟨fun c hc => isPlain_of_isNameChar (h.2 c hc), ?_⟩
      rcases hmark with rfl | rfl <;> exact isPlain_of_mem_signs (by decide)
  | quoted h => exact ⟨List.cons_ne_nil _ _, .quoted h⟩
  | number h => exact ⟨h.isPlain.1, .plain h.isPlain.2⟩
  | power h hletter hsign hdigits =>
      refine ⟨List.append_ne_nil_of_left_ne_nil h.isPlain.1 _, .plain ?_⟩
      rw [List.forall_mem_append, List.forall_mem_cons, List.forall_mem_append]
      refine ⟨h.isPlain.2, ?_, ?_, fun c hc => isPlain_of_isDigit (hdigits.2 c hc)⟩
      · rcases hletter with rfl | rfl <;> exact isPlain_of_isNameChar (by decide)
      · rcases hsign with rfl | rfl | rfl
        · exact fun c hc => absurd hc List.not_mem_nil
        · exact List.forall_mem_singleton.2 (isPlain_of_mem_signs (by decide))
        · exact List.forall_mem_singleton.2 (isPlain_of_isNameChar (by decide))
  | sign h =>
      refine ⟨List.cons_ne_nil _ _, .plain ?_⟩
      rw [List.forall_mem_singleton]
      exact isPlain_of_mem_signs (List.mem_append_left ['.', '!', '*', '+', '>'] h)
  | arrow =>
      refine ⟨List.cons_ne_nil _ _, .plain ?_⟩
      rw [List.forall_mem_cons, List.forall_mem_singleton]
      exact ⟨isPlain_of_isNameChar (by decide), isPlain_of_mem_signs (by decide)⟩

/-! ## Skipping layout -/

theorem skipComment_body {body : List Char} (h : '\n' ∉ body) (s : List Char) :
    skipComment (body ++ '\n' :: s) = skipLayout s := by
  induction body with
  | nil => simp [skipComment]
  | cons c body ih =>
      obtain ⟨hc, hbody⟩ := List.ne_and_not_mem_of_not_mem_cons h
      rw [List.cons_append, skipComment, if_neg (Ne.symm hc), ih hbody]

theorem skipLayout_layout {g : List Char} (hg : IsLayout g) (s : List Char) :
    skipLayout (g ++ s) = skipLayout s := by
  induction hg with
  | nil => rfl
  | blank hc _ ih => rw [List.cons_append, skipLayout_blank hc, ih]
  | comment hbody _ ih =>
      rw [List.cons_append, List.cons_append, List.append_assoc, List.cons_append, skipLayout,
        skipComment_body hbody, ih]

theorem IsLayout.skipLayout_eq_nil {g : List Char} (hg : IsLayout g) : skipLayout g = [] := by
  rw [← List.append_nil g, skipLayout_layout hg, skipLayout]

theorem Piece.skipLayout {p : List Char} (hp : Piece p) (hne : p ≠ []) (s : List Char) :
    skipLayout (p ++ s) = p ++ s := by
  cases hp with
  | quoted h => rfl
  | plain h =>
      obtain ⟨c, cs, rfl⟩ := List.exists_cons_of_ne_nil hne
      have hc := h c List.mem_cons_self
      simp only [isPlain, Bool.and_eq_true, Bool.not_eq_true', bne_iff_ne] at hc
      exact skipLayout_cons hc.1.2 hc.1.1 _

/-- Whether the text is at its end or goes on with layout. -/
def Breaks (s : List Char) : Prop :=
  Ends isPlain s ∧ s.head? ≠ some '"'

theorem Continues.breaks {ts : List (List Char)} {s : List Char} (h : Continues ts s) :
    Breaks s := by
  have hlayout {g : List Char} (hg : IsLayout g) (hne : g ≠ []) (u : List Char) :
      Breaks (g ++ u) := by
    cases hg with
    | nil => exact absurd rfl hne
    | blank hc hg =>
        rename_i c g
        refine ⟨ends_cons.2 (by simp [isPlain, hc]), fun heq => ?_⟩
        cases heq
        exact absurd hc (by decide)
    | comment hbody hg => exact ⟨ends_cons.2 (by decide), by simp⟩
  cases h with
  | stop hg =>
      by_cases hne : s = []
      · subst hne
        exact ⟨by simp [Ends], by simp⟩
      · rw [← List.append_nil s]
        exact hlayout hg hne []
  | token hg hne ht hs => exact hlayout hg hne _

theorem Breaks.ne_cons {u : List Char} (hu : Breaks u) {c : Char} (hc : isPlain c = true)
    (s : List Char) : u ≠ c :: s := by
  rintro rfl
  exact absurd (hc.symm.trans (ends_cons.1 hu.1)) (by decide)

theorem Breaks.endsDigits {u : List Char} (hu : Breaks u) : Ends Char.isDigit u :=
  hu.1.mono fun _ => isPlain_of_isDigit

end TreeInsertion
