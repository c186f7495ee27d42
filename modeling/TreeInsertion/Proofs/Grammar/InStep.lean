import TreeInsertion.Grammar.Reader
import TreeInsertion.Proofs.Grammar.Locality
import TreeInsertion.Proofs.Grammar.Statements

/-!
# Two texts of the same tokens

The reader goes through two texts of the same tokens in step.  At each point it has the same
piece of a token before it in both, and the layout behind that piece makes no difference.
-/

namespace TreeInsertion

/-! ## Readings in step -/

/-- What is left of the two texts: a piece of a token, and behind it the same tokens. -/
def InStep (s s' : List Char) : Prop :=
  ∃ p u u' ts, Piece p ∧ Continues ts u ∧ Continues ts u' ∧ s = p ++ u ∧ s' = p ++ u'

theorem InStep.of_piece {p u u' : List Char} {ts : List (List Char)} (hp : Piece p)
    (hu : Continues ts u) (hu' : Continues ts u') : InStep (p ++ u) (p ++ u') :=
  ⟨p, u, u', ts, hp, hu, hu', rfl, rfl⟩

theorem Piece.empty : Piece [] :=
  .plain (List.forall_mem_nil _)

theorem InStep.of_continues {u u' : List Char} {ts : List (List Char)} (hu : Continues ts u)
    (hu' : Continues ts u') : InStep u u' :=
  .of_piece Piece.empty hu hu'

/-- Behind layout, both texts go on with the same piece of a token or have come to their end. -/
theorem InStep.skip {s s' : List Char} (h : InStep s s') :
    InStep (skipLayout s) (skipLayout s') ∧ (skipLayout s = [] ↔ skipLayout s' = []) := by
  obtain ⟨p, u, u', ts, hp, hu, hu', rfl, rfl⟩ := h
  by_cases hne : p = []
  · subst hne
    cases hu with
    | stop hg =>
        cases hu' with
        | stop hg' =>
            rw [List.nil_append, List.nil_append, hg.skipLayout_eq_nil, hg'.skipLayout_eq_nil]
            exact ⟨.of_continues (.stop .nil) (.stop .nil), Iff.rfl⟩
    | token hg _ ht hs =>
        cases hu' with
        | token hg' _ _ hs' =>
            obtain ⟨htne, htp⟩ := ht.piece
            rw [List.nil_append, List.nil_append, skipLayout_layout hg, skipLayout_layout hg',
              htp.skipLayout htne, htp.skipLayout htne]
            exact ⟨InStep.of_piece htp hs hs', by simp [htne]⟩
  · rw [hp.skipLayout hne, hp.skipLayout hne]
    exact ⟨InStep.of_piece hp hu hu', by simp [hne]⟩

/-- A character that is neither layout nor a quote comes next in both texts or in neither. -/
theorem InStep.char {s s' : List Char} (h : InStep s s') {c : Char} (hc : isPlain c = true) :
    (∃ r r', s = c :: r ∧ s' = c :: r' ∧ InStep r r') ∨
      (∀ r, s ≠ c :: r) ∧ ∀ r, s' ≠ c :: r := by
  obtain ⟨p, u, u', ts, hp, hu, hu', rfl, rfl⟩ := h
  cases hp with
  | quoted h =>
      have hne : ∀ t r, '"' :: t ≠ c :: r := by
        rintro t r heq
        cases heq
        exact absurd hc (by decide)
      exact .inr ⟨hne _, hne _⟩
  | plain hp =>
      cases p with
      | nil => exact .inr ⟨hu.breaks.ne_cons hc, hu'.breaks.ne_cons hc⟩
      | cons d p =>
          by_cases hd : d = c
          · subst hd
            have htail : Piece p := .plain fun c hc => hp c (List.mem_cons_of_mem d hc)
            exact .inl ⟨p ++ u, p ++ u', rfl, rfl, .of_piece htail hu hu'⟩
          · have hne : ∀ t r, d :: t ≠ c :: r := fun t r heq => hd (List.cons.inj heq).1
            exact .inr ⟨hne _, hne _⟩

/-- Both readings fail, or both give the same and leave texts in step. -/
inductive Agree {α : Type} : Except ReadError (α × List Char) →
    Except ReadError (α × List Char) → Prop where
  | error {e e' : ReadError} : Agree (.error e) (.error e')
  | ok {a : α} {s s' : List Char} (h : InStep s s') : Agree (.ok (a, s)) (.ok (a, s'))

theorem Agree.within {α : Type} {x x' : Reading α} (h : Agree x x') (place : Place) :
    Agree (within place x) (within place x') := by
  cases h with
  | error => exact .error
  | ok h => exact .ok h

theorem Agree.bind {α β : Type} {x x' : Except ReadError (α × List Char)}
    {f : α × List Char → Except ReadError (β × List Char)} (h : Agree x x')
    (hf : ∀ a s s', x = .ok (a, s) → InStep s s' → Agree (f (a, s)) (f (a, s'))) :
    Agree (x >>= f) (x' >>= f) := by
  cases h with
  | error => exact .error
  | ok h => exact hf _ _ _ rfl h

theorem eq_error_of_toOption {α : Type} {x : Reading α} (h : x.toOption = none) :
    ∃ e, x = .error e := by
  cases x with
  | error e => exact ⟨e, rfl⟩
  | ok result => cases h

theorem eq_ok_of_toOption {α : Type} {x : Reading α} {result : α × List Char}
    (h : x.toOption = some result) : x = .ok result := by
  cases x with
  | error e => cases h
  | ok result =>
      cases h
      rfl

/-- A reader does the same on both texts if it does not look behind a piece of a token. -/
theorem Local.agree {α : Type} {reader : List Char → Reading α} (hreader : Local reader)
    {s s' : List Char} (h : InStep s s') : Agree (reader s) (reader s') := by
  obtain ⟨p, u, u', ts, hp, hu, hu', rfl, rfl⟩ := h
  cases hp with
  | quoted h =>
      obtain ⟨e, he⟩ := eq_error_of_toOption (hreader.quote _)
      obtain ⟨e', he'⟩ := eq_error_of_toOption (hreader.quote _)
      rw [List.cons_append, List.cons_append, he, he']
      exact .error
  | plain hp =>
      have happend := hreader.append hp hu.breaks
      have happend' := hreader.append hp hu'.breaks
      cases hread : reader p with
      | error e =>
          rw [hread] at happend happend'
          obtain ⟨e, he⟩ := eq_error_of_toOption happend
          obtain ⟨e', he'⟩ := eq_error_of_toOption happend'
          rw [he, he']
          exact .error
      | ok result =>
          rw [hread] at happend happend'
          rw [eq_ok_of_toOption happend, eq_ok_of_toOption happend']
          have hsuffix := hreader.suffix hread
          exact .ok (InStep.of_piece (.plain fun c hc => hp c (hsuffix.subset hc)) hu hu')

/-! ## Words and entries -/

theorem readWord_token {word : List Char} (h : '"' ∉ word) (s : List Char) :
    readWord ('"' :: (word ++ ['"']) ++ s) = .ok (String.ofList word, s) := by
  have hquote : '"' ∉ (String.ofList word).toList := by rwa [String.toList_ofList]
  have hread := readWord_quoted hquote s
  rw [String.toList_ofList] at hread
  rw [List.cons_append, List.append_assoc]
  exact hread

theorem head?_plain {p u : List Char} (hp : ∀ c ∈ p, isPlain c = true) (hu : Breaks u) :
    (p ++ u).head? ≠ some '"' := by
  cases p with
  | nil => exact hu.2
  | cons c p =>
      intro heq
      cases heq
      exact absurd (hp _ List.mem_cons_self) (by decide)

theorem agree_readWord {s s' : List Char} (h : InStep s s') :
    Agree (readWord s) (readWord s') := by
  obtain ⟨p, u, u', ts, hp, hu, hu', rfl, rfl⟩ := h
  cases hp with
  | quoted h =>
      rw [readWord_token h, readWord_token h]
      exact .ok (.of_continues hu hu')
  | plain hp =>
      rw [readWord_unquoted (head?_plain hp hu.breaks),
        readWord_unquoted (head?_plain hp hu'.breaks)]
      exact local_readName.agree (.of_piece (.plain hp) hu hu')

/-- A quote comes next in both texts or in neither. -/
theorem InStep.quote_iff {s s' : List Char} (h : InStep s s') :
    s.head? = some '"' ↔ s'.head? = some '"' := by
  obtain ⟨p, u, u', ts, hp, hu, hu', rfl, rfl⟩ := h
  cases hp with
  | quoted h => exact Iff.rfl
  | plain hp => exact iff_of_false (head?_plain hp hu.breaks) (head?_plain hp hu'.breaks)

/-- The entry for a name, by the mark behind it. -/
def entryFor (name : String) (s : List Char) : Entry × List Char :=
  match s with
  | '!' :: rest => (⟨.substitution, name⟩, rest)
  | '*' :: rest => (⟨.foot, name⟩, rest)
  | _ => (⟨if name.toList.head?.any isLowercase then .terminal else .nonterminal, name⟩, s)

theorem entryFor_unmarked {s : List Char} (hbang : ∀ rest, s ≠ '!' :: rest)
    (hstar : ∀ rest, s ≠ '*' :: rest) (name : String) : entryFor name s =
      (⟨if name.toList.head?.any isLowercase then .terminal else .nonterminal, name⟩, s) := by
  unfold entryFor
  split
  · exact absurd rfl (hbang _)
  · exact absurd rfl (hstar _)
  · rfl

theorem readEntry_unquoted {s : List Char} (h : s.head? ≠ some '"') :
    readEntry s = (readName s).bind fun result => .ok (entryFor result.1 result.2) := by
  unfold readEntry
  split
  · exact absurd rfl h
  · split
    · rename_i hname
      rw [hname]
      rfl
    · rename_i hname
      rw [hname]
      rfl
    · rename_i hname
      rw [hname]
      rfl
    · rename_i name rest hbang hstar hname
      have hentry := entryFor_unmarked (fun _ => hbang _) (fun _ => hstar _) name
      rw [hname, Except.bind, hentry]
      split <;> rfl

/-- An entry is a word, taken as it is in quotes and otherwise by the mark behind it. -/
theorem readEntry_eq (s : List Char) :
    readEntry s = (readWord s).bind fun result =>
      .ok (if s.head? = some '"' then (⟨.terminal, result.1⟩, result.2)
        else entryFor result.1 result.2) := by
  by_cases h : s.head? = some '"'
  · obtain ⟨rest, rfl⟩ := List.head?_eq_some_iff.1 h
    cases hword : readWord ('"' :: rest) <;> simp [readEntry, hword, Except.bind]
  · rw [readEntry_unquoted h, readWord_unquoted h]
    simp only [if_neg h]

theorem readEntry_token {word : List Char} (h : '"' ∉ word) (s : List Char) :
    readEntry ('"' :: (word ++ ['"']) ++ s) = .ok (⟨.terminal, String.ofList word⟩, s) := by
  rw [readEntry_eq, readWord_token h]
  rfl

theorem agree_entryFor {s s' : List Char} (h : InStep s s') (name : String) :
    Agree (.ok (entryFor name s)) (.ok (entryFor name s')) := by
  rcases h.char (isPlain_of_mem_signs (c := '!') (by decide)) with ⟨r, r', rfl, rfl, hr⟩ | hbang
  · exact .ok hr
  · rcases h.char (isPlain_of_mem_signs (c := '*') (by decide)) with ⟨r, r', rfl, rfl, hr⟩ | hstar
    · exact .ok hr
    · rw [entryFor_unmarked hbang.1 hstar.1, entryFor_unmarked hbang.2 hstar.2]
      exact .ok h

theorem agree_readEntry {s s' : List Char} (h : InStep s s') :
    Agree (readEntry s) (readEntry s') := by
  rw [readEntry_eq, readEntry_eq]
  simp only [h.quote_iff]
  refine Agree.bind (agree_readWord h) fun word t t' _ ht => ?_
  dsimp only
  split
  · exact .ok ht
  · exact agree_entryFor ht word

/-! ## Marks and lists -/

theorem agree_needChar {c : Char} (hc : isPlain c = true) {s s' : List Char} (h : InStep s s') :
    Agree (needChar c s) (needChar c s') := by
  have hfails {s : List Char} (hs : ∀ r, s ≠ c :: r) : needChar c s = .error (.noChar c s) := by
    cases s with
    | nil => rfl
    | cons d s => exact if_neg fun hd => hs s (congrArg (· :: s) hd)
  rcases h.char hc with ⟨r, r', rfl, rfl, hr⟩ | ⟨hs, hs'⟩
  · rw [needChar, needChar, if_pos rfl, if_pos rfl]
    exact .ok hr
  · rw [hfails hs, hfails hs']
    exact .error

theorem needArrow_of_ne {s : List Char} (h : ∀ rest, s ≠ '-' :: '>' :: rest) :
    needArrow s = .error (.noLexeme .arrow s) := by
  rw [needArrow]
  exact h

theorem agree_needArrow {s s' : List Char} (h : InStep s s') :
    Agree (needArrow s) (needArrow s') := by
  rcases h.char (isPlain_of_isNameChar (c := '-') (by decide)) with ⟨r, r', rfl, rfl, hr⟩ | hdash
  · rcases hr.char (isPlain_of_mem_signs (c := '>') (by decide)) with ⟨t, t', rfl, rfl, ht⟩ | hpoint
    · exact .ok ht
    · rw [needArrow_of_ne fun rest heq => hpoint.1 rest (List.cons.inj heq).2,
        needArrow_of_ne fun rest heq => hpoint.2 rest (List.cons.inj heq).2]
      exact .error
  · rw [needArrow_of_ne fun rest => hdash.1 _, needArrow_of_ne fun rest => hdash.2 _]
    exact .error

theorem InStep.after? {s s' : List Char} (h : InStep s s') {c : Char} (hc : isPlain c = true) :
    (∃ r r', after? c s = some r ∧ after? c s' = some r' ∧ InStep r r') ∨
      after? c s = none ∧ after? c s' = none := by
  have hfails {s : List Char} (hs : ∀ r, skipLayout s ≠ c :: r) :
      TreeInsertion.after? c s = none := by
    unfold TreeInsertion.after?
    split
    · rfl
    · rename_i hskip
      exact if_neg fun hd => hs _ (hd ▸ hskip)
  rcases h.skip.1.char hc with ⟨r, r', hr, hr', hstep⟩ | ⟨hs, hs'⟩
  · refine .inl ⟨r, r', ?_, ?_, hstep⟩
    · rw [TreeInsertion.after?, hr]
      exact if_pos rfl
    · rw [TreeInsertion.after?, hr']
      exact if_pos rfl
  · exact .inr ⟨hfails hs, hfails hs'⟩

theorem readUntil_eq {α : Type} {close : Char} {item : List Char → Reading α}
    {shrinks : Shrinks item} {s : List Char} (h : after? close s = none) :
    readUntil close item shrinks s = (item (skipLayout s)).bind fun first =>
      (readUntil close item shrinks first.2).bind fun more =>
        .ok (first.1 :: more.1, more.2) := by
  rw [readUntil, h]
  dsimp only
  split
  · rename_i hitem
    rw [hitem]
    rfl
  · rename_i hitem
    rw [hitem, Except.bind]
    split
    · rename_i hrest
      rw [hrest]
      rfl
    · rename_i hrest
      rw [hrest]
      rfl

theorem agree_readUntil {α : Type} {close : Char} {item : List Char → Reading α}
    {shrinks : Shrinks item} (hclose : isPlain close = true)
    (hitem : ∀ s s', InStep s s' → Agree (item s) (item s')) {s s' : List Char}
    (h : InStep s s') :
    Agree (readUntil close item shrinks s) (readUntil close item shrinks s') := by
  induction hn : s.length using Nat.strongRecOn generalizing s s' with
  | ind n ih =>
      subst hn
      rcases h.after? hclose with ⟨r, r', hr, hr', hstep⟩ | ⟨hnone, hnone'⟩
      · rw [readUntil_close hr, readUntil_close hr']
        exact .ok hstep
      · rw [readUntil_eq hnone, readUntil_eq hnone']
        refine Agree.bind (hitem _ _ h.skip.1) fun a t t' hfirst ht => ?_
        have hlt : t.length < s.length :=
          Nat.lt_of_lt_of_le (shrinks _ _ _ hfirst) (length_skipLayout_le s)
        exact Agree.bind (ih _ hlt ht rfl) fun as r r' _ hr => .ok hr

/-! ## Statements -/

theorem agree_readLayer {s s' : List Char} (h : InStep s s') :
    Agree (readLayer s) (readLayer s') := by
  refine (local_readAddress.agree h).bind fun g s s' _ h => ?_
  refine (agree_needChar (isPlain_of_mem_signs (by decide)) h.skip.1).bind fun _ s s' _ h => ?_
  refine ((local_readName.agree h.skip.1).within _).bind fun lhs s s' _ h => ?_
  refine ((agree_needArrow h.skip.1).within _).bind fun _ s s' _ h => ?_
  refine Agree.bind (agree_readUntil (isPlain_of_mem_signs (by decide))
    (fun s s' h => (agree_readEntry h).within _) h) fun rhs s s' _ h => ?_
  exact .ok h

theorem agree_readAttribute (index : Nat) {s s' : List Char} (h : InStep s s') :
    Agree (readAttribute index s) (readAttribute index s') := by
  refine (local_readName.agree h).bind fun name s s' _ h => ?_
  dsimp only
  split
  · exact (local_readInteger.agree h.skip.1).bind fun n s s' _ h => .ok h
  · exact (local_readDecimal.agree h.skip.1).bind fun x s s' _ h => .ok h
  · exact (local_readAddress.agree h.skip.1).bind fun g s s' _ h => .ok h
  · exact .error

theorem agree_readRule {s s' : List Char} (h : InStep s s') :
    Agree (readRule s) (readRule s') := by
  have hsign {c : Char} (hc : c ∈ signs) : isPlain c = true := isPlain_of_mem_signs hc
  refine ((local_readInteger.agree h).within _).bind fun index s s' _ h => ?_
  refine (agree_needChar (hsign (by decide)) h.skip.1).bind fun _ s s' _ h => ?_
  refine Agree.bind (agree_readUntil (hsign (by decide))
    (fun s s' h => (agree_readWord h).within _) h) fun anchors s s' _ h => ?_
  refine Agree.bind (agree_readUntil (hsign (by decide))
    (fun s s' h => agree_readAttribute index h) h) fun attributes s s' _ h => ?_
  refine Agree.bind (agree_readUntil (hsign (by decide))
    (fun s s' h => (agree_readLayer h).within _) h) fun layers s s' _ h => ?_
  exact .ok h

theorem agree_readNextSymbol {s s' : List Char} (h : InStep s s') :
    Agree (readNextSymbol s) (readNextSymbol s') := by
  refine (agree_needChar (isPlain_of_mem_signs (by decide)) h).bind fun _ s s' _ h => ?_
  exact (local_readName.agree h.skip.1).within _

theorem agree_readSymbols {s s' : List Char} (h : InStep s s') :
    Agree (readSymbols s) (readSymbols s') := by
  have hsemicolon : isPlain ';' = true := isPlain_of_mem_signs (by decide)
  unfold readSymbols
  rcases h.after? hsemicolon with ⟨r, r', hr, hr', hstep⟩ | ⟨hnone, hnone'⟩
  · rw [hr, hr']
    exact .ok hstep
  · rw [hnone, hnone']
    refine Agree.bind ((local_readName.agree h.skip.1).within _) fun first s s' _ h => ?_
    exact Agree.bind (agree_readUntil hsemicolon (fun s s' h => agree_readNextSymbol h) h)
      fun more s s' _ h => .ok h

theorem agree_readStatement {s s' : List Char} (h : InStep s s') :
    Agree (readStatement s) (readStatement s') := by
  refine (local_readName.agree h).bind fun keyword s s' _ h => ?_
  dsimp only
  split
  · exact (agree_readSymbols h.skip.1).bind fun symbols s s' _ h => .ok h
  · exact (agree_readRule h.skip.1).bind fun r s s' _ h => .ok h
  · exact .error

theorem readStatements_nil {s : List Char} (h : skipLayout s = []) :
    readStatements s = .ok ([], []) := by
  rw [readStatements, h]
  rfl

theorem readStatements_eq {s : List Char} (h : skipLayout s ≠ []) :
    readStatements s = (readStatement (skipLayout s)).bind fun first =>
      (readStatements first.2).bind fun more => .ok (first.1 :: more.1, more.2) := by
  rw [readStatements, if_neg (by simpa using h)]
  split
  · rename_i hfirst
    rw [hfirst]
    rfl
  · rename_i hfirst
    rw [hfirst, Except.bind]
    split
    · rename_i hrest
      rw [hrest]
      rfl
    · rename_i hrest
      rw [hrest]
      rfl

theorem readStatements_congr {s s' : List Char} (h : skipLayout s = skipLayout s') :
    readStatements s = readStatements s' := by
  by_cases hnil : skipLayout s = []
  · rw [readStatements_nil hnil, readStatements_nil (h.symm.trans hnil)]
  · rw [readStatements_eq hnil, readStatements_eq (h ▸ hnil), h]

theorem agree_readStatements {s s' : List Char} (h : InStep s s') :
    Agree (readStatements s) (readStatements s') := by
  induction hn : s.length using Nat.strongRecOn generalizing s s' with
  | ind n ih =>
      subst hn
      obtain ⟨hskip, hend⟩ := h.skip
      by_cases hnil : skipLayout s = []
      · rw [readStatements_nil hnil, readStatements_nil (hend.1 hnil)]
        exact .ok (.of_continues (.stop .nil) (.stop .nil))
      · rw [readStatements_eq hnil, readStatements_eq (mt hend.2 hnil)]
        refine Agree.bind (agree_readStatement hskip) fun first t t' hfirst ht => ?_
        have hlt : t.length < s.length :=
          Nat.lt_of_lt_of_le (readStatement_lt hfirst) (length_skipLayout_le s)
        exact Agree.bind (ih _ hlt ht rfl) fun more r r' _ hr => .ok hr

/-- Statements are read to the end of the text. -/
theorem rest_of_readStatements {s rest : List Char} {statements : List Statement}
    (h : readStatements s = .ok (statements, rest)) : rest = [] := by
  fun_induction readStatements s generalizing statements rest with
  | case1 s hempty =>
      cases h
      exact List.isEmpty_iff.1 hempty
  | case2 => cases h
  | case3 => cases h
  | case4 s _ first t hfirst more tail hmore ih =>
      cases h
      exact ih hmore

/-! ## Texts -/

theorem agree_of_isText {ts : List (List Char)} {s s' : List Char} (h : IsText ts s)
    (h' : IsText ts s') : Agree (readStatements s) (readStatements s') := by
  cases h with
  | layout hg =>
      cases h' with
      | layout hg' =>
          rw [readStatements_nil hg.skipLayout_eq_nil, readStatements_nil hg'.skipLayout_eq_nil]
          exact .ok (.of_continues (.stop .nil) (.stop .nil))
  | tokens hg ht hs =>
      cases h' with
      | tokens hg' _ hs' =>
          rw [readStatements_congr (skipLayout_layout hg _),
            readStatements_congr (skipLayout_layout hg' _)]
          exact agree_readStatements (.of_piece ht.piece.2 hs hs')

namespace Grammar

/--
Layout makes no difference.  Two texts of the same tokens are both rejected or are the same
grammar, and two slashes in a quoted word belong to the word.
-/
theorem read_same_tokens :
    (∀ (ts : List (List Char)) (text text' : String), IsText ts text.toList →
      IsText ts text'.toList →
        (∃ e e', read text = .error e ∧ read text' = .error e') ∨
          ∃ g, read text = .ok g ∧ read text' = .ok g) ∧
    ∀ before behind rest : List Char, '"' ∉ before → '"' ∉ behind →
      let word := before ++ '/' :: '/' :: behind
      readWord ('"' :: (word ++ ['"']) ++ rest) = .ok (String.ofList word, rest) ∧
        readEntry ('"' :: (word ++ ['"']) ++ rest) =
          .ok (⟨.terminal, String.ofList word⟩, rest) := by
  constructor
  · intro ts text text' h h'
    have hagree := agree_of_isText h h'
    unfold read ofChars
    generalize hx : readStatements text.toList = x at hagree ⊢
    generalize hx' : readStatements text'.toList = x' at hagree ⊢
    cases hagree with
    | error => exact .inl ⟨_, _, rfl, rfl⟩
    | ok hstep =>
        obtain rfl := rest_of_readStatements hx
        obtain rfl := rest_of_readStatements hx'
        rename_i statements
        cases hg : ofStatements statements with
        | error e => exact .inl ⟨e, e, hg, hg⟩
        | ok g => exact .inr ⟨g, hg, hg⟩
  · intro before behind rest hbefore hbehind word
    have hquote : '"' ∉ word := by simp [word, hbefore, hbehind]
    exact ⟨readWord_token hquote rest, readEntry_token hquote rest⟩

def slashed : List (List Char) :=
  [['r', 'u', 'l', 'e'], ['0'], ['['], [']'], ['\x7b'], ['0'], [':'], ['S'], ['-', '>'],
    ['"', 'a', '/', '/', 'b', '"'], [';'], ['\x7d']]

theorem isToken_of_mem_slashed : ∀ t ∈ slashed, IsToken t := by
  have hname {run : List Char} (h : IsRun isNameChar run) : IsToken run := .name h
  have hsign {c : Char} (h : c ∈ ['[', ']', '\x7b', '\x7d', ':', ';', ',']) : IsToken [c] := .sign h
  have hquoted : IsToken ('"' :: (['a', '/', '/', 'b'] ++ ['"'])) := .quoted (by decide)
  simp only [slashed, List.forall_mem_cons]
  exact ⟨hname (by decide), hname (by decide), hsign (by decide), hsign (by decide),
    hsign (by decide), hname (by decide), hsign (by decide), hname (by decide), .arrow, hquoted,
    hsign (by decide), hsign (by decide), List.forall_mem_nil _⟩

theorem read_slashed : ∃ g,
    read (String.ofList (slashed.flatMap fun t => [' '] ++ t)) = .ok g ∧
    read (String.ofList (slashed.flatMap fun t => ['/', '/', '"', '\n'] ++ t)) = .ok g ∧
    g.rules.map Rule.layers =
      [[⟨⟨[0]⟩, [⟨.nonterminal, "S"⟩, ⟨.terminal, "a//b"⟩]⟩]] := by
  have htext {g : List Char} (hg : IsLayout g) (hne : g ≠ []) :
      IsText slashed (String.ofList (slashed.flatMap fun t => g ++ t)).toList := by
    rw [String.toList_ofList]
    exact isText_flatMap hg hne isToken_of_mem_slashed
  have hblank : IsLayout [' '] := .blank (by decide) .nil
  have hcomment : IsLayout ('/' :: '/' :: (['"'] ++ '\n' :: [])) := .comment (by decide) .nil
  have hlayers : (ofChars (slashed.flatMap fun t => [' '] ++ t)).toOption.map
      (fun g => g.rules.map Rule.layers) =
        some [[⟨⟨[0]⟩, [⟨.nonterminal, "S"⟩, ⟨.terminal, "a//b"⟩]⟩]] := by decide +kernel
  rcases read_same_tokens.1 slashed _ _ (htext hblank (List.cons_ne_nil _ _))
    (htext hcomment (List.cons_ne_nil _ _)) with ⟨e, e', he, -⟩ | ⟨g, hg, hg'⟩
  · rw [read, String.toList_ofList] at he
    rw [he] at hlayers
    cases hlayers
  · refine ⟨g, hg, hg', ?_⟩
    rw [read, String.toList_ofList] at hg
    rw [hg] at hlayers
    exact Option.some.inj hlayers

end Grammar

end TreeInsertion
