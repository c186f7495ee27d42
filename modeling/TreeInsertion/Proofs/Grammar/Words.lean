import TreeInsertion.Proofs.Grammar.Tokens

/-!
# Words and numbers by themselves

A word is printed bare if it looks like one, where all letters and numerals count.  The
reader takes names, which have fewer characters, so some bare words are cut off.  A number
is read back unless it was too large, since infinity is printed as a word.
-/

namespace TreeInsertion

/-! ## Words -/

/-- What the reader takes for a name is one, and it stands at the beginning of the text. -/
theorem isName_of_readName {s rest : List Char} {name : String}
    (h : readName s = .ok (name, rest)) : IsName name ∧ s = name.toList ++ rest := by
  unfold readName at h
  split at h
  · cases h
  · rename_i run tail hrun
    cases h
    have hrun := within_eq_ok.1 hrun
    unfold needRun at hrun
    split at hrun
    · cases hrun
    · rename_i hne
      cases hrun
      rw [IsName, String.toList_ofList]
      refine ⟨⟨fun hnil => hne (by rw [hnil]; rfl), fun c hc => ?_⟩, ?_⟩
      · exact List.all_eq_true.1 List.all_takeWhile c hc
      · exact List.takeWhile_append_dropWhile.symm

theorem readWord_unquoted {s : List Char} (h : s.head? ≠ some '"') : readWord s = readName s := by
  rw [readWord]
  rintro rest rfl
  exact h rfl

/-- Without quotes, only a name is read as a word. -/
theorem readName_of_readEntry {s rest : List Char} {word : String} (h : s.head? ≠ some '"')
    (hread : readEntry s = .ok (⟨.terminal, word⟩, rest)) : readName s = .ok (word, rest) := by
  unfold readEntry at hread
  split at hread
  · exact absurd rfl h
  · split at hread
    · cases hread
    · cases hread
    · cases hread
    · rename_i hname
      split at hread
      · cases hread
        exact hname
      · cases hread

/-- What may come after a word: nothing, a blank character, a semicolon or a bracket. -/
def EndsWord (rest : List Char) : Prop :=
  ∀ c ∈ rest.head?, isBlank c = true ∨ c = ';' ∨ c = ']'

theorem EndsWord.endsEntry {rest : List Char} (h : EndsWord rest) : Ends continuesEntry rest := by
  intro c hc
  rcases h c hc with hblank | rfl | rfl
  · have hne (d : Char) (hd : isBlank d = false) : c ≠ d := by
      rintro rfl
      exact absurd (hblank.symm.trans hd) (by decide)
    simp [continuesEntry, isNameChar_of_isBlank hblank, hne '!' (by decide), hne '*' (by decide)]
  · decide
  · decide

theorem Ends.endsName {rest : List Char} (h : Ends continuesEntry rest) : Ends isNameChar rest :=
  h.mono fun c hc => by simp [continuesEntry, hc]

/-- A bare word without quotes is at the beginning of the text that it is printed to. -/
theorem head?_bare {word : String} (h : '"' ∉ word.toList) (hbare : Word.isBare word = true)
    (rest : List Char) : (word.toList ++ rest).head? ≠ some '"' := by
  cases hchars : word.toList with
  | nil => simp [Word.isBare, hchars] at hbare
  | cons c cs =>
      rw [hchars] at h
      rintro hquote
      cases hquote
      exact h List.mem_cons_self

theorem readWord_render_iff {word : String} (h : '"' ∉ word.toList) {rest : List Char}
    (hrest : Ends isNameChar rest) :
    readWord ((Word.render word).toList ++ rest) = .ok (word, rest) ↔ Word.Writable word := by
  refine ⟨fun hread => ⟨h, fun hbare => ?_⟩, fun hword => readWord_render hword hrest⟩
  rw [Word.render_bare hbare, readWord_unquoted (head?_bare h hbare rest)] at hread
  exact (isName_of_readName hread).1.2

theorem readEntry_word_iff {word : String} (h : '"' ∉ word.toList) {rest : List Char}
    (hrest : Ends continuesEntry rest) :
    readEntry ((Word.render word).toList ++ rest) = .ok (⟨.terminal, word⟩, rest) ↔
      Word.Writable word := by
  refine ⟨fun hread => ⟨h, fun hbare => ?_⟩, fun hword => readEntry_word hword hrest⟩
  rw [Word.render_bare hbare] at hread
  exact (isName_of_readName (readName_of_readEntry (head?_bare h hbare rest) hread)).1.2

/-! ## Numbers -/

namespace Decimal

theorem ofDecimal_le (digits : Nat) (exponent : Int) : ofDecimal digits exponent ≤ infinity := by
  unfold ofDecimal
  dsimp only
  split
  · exact Nat.zero_le _
  · split
    · exact Nat.le_refl _
    · split <;> exact Nat.min_le_left _ _

theorem toBits_ofParts_le (whole fraction : List Char) (exponent : Int) :
    (ofParts whole fraction exponent).toBits.toNat ≤ infinity := by
  rw [ofParts, toBits_ofBits (ofDecimal_le _ _)]
  exact ofDecimal_le _ _

theorem render_infinity {x : Float} (h : x.toBits.toNat = infinity) : render x = "inf" := by
  rw [render, h]
  rfl

end Decimal

theorem toBits_le_of_readDecimal {s rest : List Char} {x : Float}
    (h : readDecimal s = .ok (x, rest)) : x.toBits.toNat ≤ Decimal.infinity := by
  unfold readDecimal at h
  split at h
  · cases h
  · cases h
    exact Decimal.toBits_ofParts_le _ _ _

theorem readDecimal_render_iff {x : Float} (hx : x.toBits.toNat ≤ Decimal.infinity)
    {rest : List Char} (hrest : Delimited rest) :
    readDecimal ((Decimal.render x).toList ++ rest) = .ok (x, rest) ↔
      x.toBits.toNat < Decimal.infinity := by
  refine ⟨fun hread => Nat.lt_of_le_of_ne hx fun hinfinity => ?_, fun h => ?_⟩
  · rw [Decimal.render_infinity hinfinity] at hread
    cases hread
  · exact readDecimal_render h hrest

/--
A word without quotes is read back, by itself and as an entry, exactly if all its characters
are those of names or it is quoted, and a number that was read exactly if it is finite.
-/
theorem reads_back_iff {word : String} (hquote : '"' ∉ word.toList) {rest : List Char}
    (hrest : EndsWord rest) {s tail : List Char} {x : Float}
    (hread : readDecimal s = .ok (x, tail)) :
    (readEntry ((Entry.render ⟨.terminal, word⟩).toList ++ rest) = .ok (⟨.terminal, word⟩, rest) ↔
      (Word.isBare word = true → ∀ c ∈ word.toList, isNameChar c = true)) ∧
    (readWord ((Word.render word).toList ++ rest) = .ok (word, rest) ↔
      (Word.isBare word = true → ∀ c ∈ word.toList, isNameChar c = true)) ∧
    (readDecimal ((Decimal.render x).toList ++ [' ']) = .ok (x, [' ']) ↔
      x.toBits.toNat < Decimal.infinity) := by
  have hwritable : Word.Writable word ↔
      (Word.isBare word = true → ∀ c ∈ word.toList, isNameChar c = true) := and_iff_right hquote
  rw [← hwritable]
  exact ⟨readEntry_word_iff hquote hrest.endsEntry,
    readWord_render_iff hquote hrest.endsEntry.endsName,
    readDecimal_render_iff (toBits_le_of_readDecimal hread) (delimited_blank [])⟩

/-- A bare word before a semicolon, and a number that is a power of two. -/
theorem reads_back_dog :
    '"' ∉ "dog".toList ∧ EndsWord [';'] ∧
    ∃ x, readDecimal ['0', '.', '2', '5'] = .ok (x, []) ∧
      readEntry ((Entry.render ⟨.terminal, "dog"⟩).toList ++ [';']) =
        .ok (⟨.terminal, "dog"⟩, [';']) ∧
      readWord ((Word.render "dog").toList ++ [';']) = .ok ("dog", [';']) ∧
      readDecimal ((Decimal.render x).toList ++ [' ']) = .ok (x, [' ']) := by
  have hdog : Word.Writable "dog" := by decide +kernel
  have hends : EndsWord [';'] := by simp [EndsWord]
  have hread : readDecimal ['0', '.', '2', '5'] =
      .ok (Decimal.ofParts ['0'] ['2', '5'] 0, []) := rfl
  have hfinite : (Decimal.ofParts ['0'] ['2', '5'] 0).toBits.toNat < Decimal.infinity := by
    rw [Decimal.ofParts, Decimal.toBits_ofBits (Decimal.ofDecimal_le _ _)]
    decide +kernel
  obtain ⟨hentry, hword, hnumber⟩ := reads_back_iff hdog.1 hends hread
  exact ⟨hdog.1, hends, _, hread, hentry.2 hdog.2, hword.2 hdog.2, hnumber.2 hfinite⟩

/-- The numeral is taken for a part of the word, and the word for infinity is no number. -/
theorem not_always_read_back :
    readEntry ((Entry.render ⟨.terminal, "a²"⟩).toList ++ [';']) =
      .ok (⟨.terminal, "a"⟩, ['²', ';']) ∧
    readWord ((Word.render "a²").toList ++ [';']) = .ok ("a", ['²', ';']) ∧
    ∃ x, readDecimal ['1', 'e', '9', '9', '9'] = .ok (x, []) ∧
      readDecimal ((Decimal.render x).toList ++ [' ']) ≠ .ok (x, [' ']) := by
  refine ⟨by decide +kernel, by decide +kernel, ?_⟩
  have hread : readDecimal ['1', 'e', '9', '9', '9'] =
      .ok (Decimal.ofParts ['1'] [] 999, []) := rfl
  have hbits : (Decimal.ofParts ['1'] [] 999).toBits.toNat = Decimal.infinity := by
    rw [Decimal.ofParts, Decimal.toBits_ofBits (Decimal.ofDecimal_le _ _)]
    decide +kernel
  refine ⟨_, hread, fun hback => ?_⟩
  exact ((readDecimal_render_iff hbits.le (delimited_blank [])).1 hback).ne hbits

end TreeInsertion
