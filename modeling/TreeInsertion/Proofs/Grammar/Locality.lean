import TreeInsertion.Proofs.Grammar.Layout

/-!
# Readers before layout

Where layout begins, every token ends.  So a reader of tokens takes from the beginning of a
text what it would take if nothing came behind it, even if that is a part of a token only.
-/

namespace TreeInsertion

/-! ## Runs of characters -/

theorem takeWhile_append_ends {q : Char → Bool} {u : List Char} (hu : Ends q u) (p : List Char) :
    (p ++ u).takeWhile q = p.takeWhile q := by
  induction p with
  | nil => simpa using takeWhile_run (List.forall_mem_nil _) hu
  | cons c p ih => rw [List.cons_append, List.takeWhile_cons, List.takeWhile_cons, ih]

theorem dropWhile_append_ends {q : Char → Bool} {u : List Char} (hu : Ends q u) (p : List Char) :
    (p ++ u).dropWhile q = p.dropWhile q ++ u := by
  induction p with
  | nil => simpa using dropWhile_run (List.forall_mem_nil _) hu
  | cons c p ih =>
      rw [List.cons_append, List.dropWhile_cons, List.dropWhile_cons, ih]
      split <;> rfl

/--
A reader that takes from a piece of a token what it would take if nothing came behind it, and
that takes nothing from a quoted word.
-/
structure Local {α : Type} (reader : List Char → Reading α) : Prop where
  append : ∀ {p u : List Char}, (∀ c ∈ p, isPlain c = true) → Breaks u →
    (reader (p ++ u)).toOption = (reader p).toOption.map fun result => (result.1, result.2 ++ u)
  suffix : ∀ {s rest : List Char} {a : α}, reader s = .ok (a, rest) → rest <:+ s
  quote : ∀ s, (reader ('"' :: s)).toOption = none

theorem needRun_append (lexeme : Lexeme) {q : Char → Bool} {u : List Char} (hu : Ends q u)
    (p : List Char) : (needRun lexeme q (p ++ u)).toOption =
      (needRun lexeme q p).toOption.map fun result => (result.1, result.2 ++ u) := by
  rw [needRun, needRun, takeWhile_append_ends hu, dropWhile_append_ends hu]
  split <;> rfl

theorem suffix_of_needRun {lexeme : Lexeme} {q : Char → Bool} {s run rest : List Char}
    (h : needRun lexeme q s = .ok (run, rest)) : rest <:+ s := by
  unfold needRun at h
  split at h
  · cases h
  · cases h
    exact List.dropWhile_suffix q

/-- A reader that takes a run of characters of names and then goes on as `next` does. -/
theorem Local.of_needRun {α : Type} (lexeme : Lexeme) {q : Char → Bool}
    (hq : ∀ c, q c = true → isNameChar c = true) {reader : List Char → Reading α}
    (next : List Char → List Char → Reading α)
    (hreader : ∀ s, (reader s).toOption =
      (needRun lexeme q s).toOption.bind fun result => (next result.1 result.2).toOption)
    (happend : ∀ run p u, Breaks u → (next run (p ++ u)).toOption =
      (next run p).toOption.map fun result => (result.1, result.2 ++ u))
    (hsuffix : ∀ {run s rest : List Char} {a : α}, next run s = .ok (a, rest) → rest <:+ s) :
    Local reader where
  append {p u} hp hu := by
    have hends : Ends q u := hu.1.mono fun c hc => isPlain_of_isNameChar (hq c hc)
    rw [hreader, hreader, needRun_append lexeme hends]
    cases needRun lexeme q p with
    | error e => rfl
    | ok result => exact happend result.1 result.2 u hu
  suffix {s rest a} h := by
    have hread := hreader s
    rw [h] at hread
    cases hrun : needRun lexeme q s with
    | error e =>
        rw [hrun] at hread
        cases hread
    | ok result =>
        obtain ⟨run, tail⟩ := result
        rw [hrun] at hread
        cases hnext : next run tail with
        | error e =>
            simp only [Except.toOption, Option.bind_some, hnext] at hread
            cases hread
        | ok result' =>
            simp only [Except.toOption, Option.bind_some, hnext, Option.some.injEq] at hread
            subst hread
            exact (hsuffix hnext).trans (suffix_of_needRun hrun)
  quote s := by
    have hquote : q '"' = false := by
      cases h : q '"' with
      | false => rfl
      | true => exact absurd (hq _ h) (by decide)
    rw [hreader, needRun, List.takeWhile_cons_of_neg (by simp [hquote])]
    rfl

theorem local_readName : Local readName := by
  refine Local.of_needRun .name (fun _ => id)
    (fun run rest => .ok (String.ofList run, rest)) ?_ ?_ ?_
  · intro s
    rw [readName]
    cases needRun .name isNameChar s <;> rfl
  · exact fun run p u _ => rfl
  · intro run s rest a h
    cases h
    exact List.suffix_refl s

theorem local_readInteger : Local readInteger := by
  refine Local.of_needRun .integer (fun _ => isNameChar_of_isDigit)
    (fun ds rest => (wordOfDigits ds).map fun n => (n, rest)) ?_ ?_ ?_
  · intro s
    rw [readInteger]
    cases needRun .integer Char.isDigit s with
    | error e => rfl
    | ok result =>
        dsimp only [Except.toOption, Option.bind_some]
        cases wordOfDigits result.1 <;> rfl
  · intro run p u _
    cases wordOfDigits run <;> rfl
  · intro run s rest a h
    cases hn : wordOfDigits run with
    | error e => simp [hn, Except.map] at h
    | ok n =>
        rw [hn] at h
        cases h
        exact List.suffix_refl s

theorem takeFraction_of_ne {s : List Char} (h : ∀ rest, s ≠ '.' :: rest) :
    Decimal.takeFraction s = ([], s) := by
  rw [Decimal.takeFraction]
  exact h

theorem takeFraction_append {u : List Char} (hu : Breaks u) (p : List Char) :
    Decimal.takeFraction (p ++ u) =
      ((Decimal.takeFraction p).1, (Decimal.takeFraction p).2 ++ u) := by
  have hpoint : isPlain '.' = true := isPlain_of_mem_signs (by decide)
  cases p with
  | nil =>
      rw [List.nil_append, takeFraction_of_ne (hu.ne_cons hpoint), takeFraction_of_ne (by simp),
        List.nil_append]
  | cons c p =>
      by_cases hc : c = '.'
      · subst hc
        rw [List.cons_append, Decimal.takeFraction, Decimal.takeFraction,
          takeWhile_append_ends hu.endsDigits, dropWhile_append_ends hu.endsDigits]
        split <;> rfl
      · have hne : ∀ s rest, c :: s ≠ '.' :: rest := fun s rest heq => hc (List.cons.inj heq).1
        rw [List.cons_append, takeFraction_of_ne (hne _), takeFraction_of_ne (hne _),
          List.cons_append]

theorem takeFraction_suffix (s : List Char) : (Decimal.takeFraction s).2 <:+ s := by
  unfold Decimal.takeFraction
  split
  · split
    · exact List.suffix_refl _
    · exact (List.dropWhile_suffix _).trans (List.suffix_cons _ _)
  · exact List.suffix_refl _

theorem takeSign_append {u : List Char} (hu : Breaks u) (p : List Char) :
    Decimal.takeSign (p ++ u) = ((Decimal.takeSign p).1, (Decimal.takeSign p).2 ++ u) := by
  have hplus : isPlain '+' = true := isPlain_of_mem_signs (by decide)
  have hminus : isPlain '-' = true := isPlain_of_isNameChar (by decide)
  cases p with
  | nil =>
      rw [List.nil_append]
      unfold Decimal.takeSign
      split
      · exact absurd rfl (hu.ne_cons hminus _)
      · exact absurd rfl (hu.ne_cons hplus _)
      · rfl
  | cons c p =>
      unfold Decimal.takeSign
      split <;> simp_all

theorem takeSign_suffix (s : List Char) : (Decimal.takeSign s).2 <:+ s := by
  unfold Decimal.takeSign
  split
  · exact List.suffix_cons _ _
  · exact List.suffix_cons _ _
  · exact List.suffix_refl _

theorem takeExponent_append {u : List Char} (hu : Breaks u) (p : List Char) :
    Decimal.takeExponent (p ++ u) =
      ((Decimal.takeExponent p).1, (Decimal.takeExponent p).2 ++ u) := by
  cases p with
  | nil =>
      cases u with
      | nil => rfl
      | cons c u =>
          have hsmall : c ≠ 'e' := fun h =>
            hu.ne_cons (isPlain_of_isNameChar (by decide)) u (congrArg (· :: u) h)
          have hlarge : c ≠ 'E' := fun h =>
            hu.ne_cons (isPlain_of_isNameChar (by decide)) u (congrArg (· :: u) h)
          simp [Decimal.takeExponent, hsmall, hlarge]
  | cons c p =>
      simp only [List.cons_append, Decimal.takeExponent, takeSign_append hu,
        takeWhile_append_ends hu.endsDigits, dropWhile_append_ends hu.endsDigits]
      split <;> rfl

theorem takeExponent_suffix (s : List Char) : (Decimal.takeExponent s).2 <:+ s := by
  unfold Decimal.takeExponent
  split
  · exact List.suffix_refl _
  · rename_i c rest
    dsimp only
    split
    · exact ((List.dropWhile_suffix _).trans (takeSign_suffix rest)).trans (List.suffix_cons c rest)
    · exact List.suffix_refl _

theorem local_readDecimal : Local readDecimal := by
  refine Local.of_needRun .decimal (fun _ => isNameChar_of_isDigit)
    (fun whole rest =>
      let fraction := Decimal.takeFraction rest
      let exponent := Decimal.takeExponent fraction.2
      .ok (Decimal.ofParts whole fraction.1 exponent.1, exponent.2)) ?_ ?_ ?_
  · intro s
    rw [readDecimal]
    cases needRun .decimal Char.isDigit s <;> rfl
  · intro run p u hu
    simp only [takeFraction_append hu, takeExponent_append hu]
    rfl
  · intro run s rest x h
    cases h
    exact (takeExponent_suffix _).trans (takeFraction_suffix s)

theorem moreSteps_of_ne {s : List Char} (h : ∀ rest, s ≠ '.' :: rest) : moreSteps s = ([], s) := by
  rw [moreSteps]
  exact h

theorem moreSteps_append {u : List Char} (hu : Breaks u) (p : List Char) :
    moreSteps (p ++ u) = ((moreSteps p).1, (moreSteps p).2 ++ u) := by
  fun_induction moreSteps p with
  | case1 rest hempty =>
      rw [List.cons_append, moreSteps, takeWhile_append_ends hu.endsDigits, if_pos hempty]
  | case2 rest hne steps tail htail ih =>
      rw [htail] at ih
      rw [List.cons_append, moreSteps, takeWhile_append_ends hu.endsDigits,
        dropWhile_append_ends hu.endsDigits, if_neg hne, ih]
  | case3 s hs =>
      refine moreSteps_of_ne fun rest heq => ?_
      cases s with
      | nil => exact hu.ne_cons (isPlain_of_mem_signs (by decide)) rest heq
      | cons c s =>
          cases heq
          exact hs _ rfl

theorem moreSteps_suffix (s : List Char) : (moreSteps s).2 <:+ s := by
  fun_induction moreSteps s with
  | case1 => exact List.suffix_refl _
  | case2 rest _ steps tail htail ih =>
      rw [htail] at ih
      exact (ih.trans (List.dropWhile_suffix _)).trans (List.suffix_cons _ _)
  | case3 => exact List.suffix_refl _

theorem local_readAddress : Local readAddress := by
  refine Local.of_needRun .address (fun _ => isNameChar_of_isDigit)
    (fun first rest => ((first :: (moreSteps rest).1).mapM wordOfDigits).map fun path =>
      (⟨path⟩, (moreSteps rest).2)) ?_ ?_ ?_
  · intro s
    rw [readAddress]
    cases needRun .address Char.isDigit s with
    | error e => rfl
    | ok result =>
        dsimp only [within, Except.toOption, Option.bind_some]
        cases (result.1 :: (moreSteps result.2).1).mapM wordOfDigits <;> rfl
  · intro first p u hu
    rw [moreSteps_append hu]
    cases (first :: (moreSteps p).1).mapM wordOfDigits <;> rfl
  · intro first s rest g h
    cases hpath : (first :: (moreSteps s).1).mapM wordOfDigits with
    | error e =>
        rw [hpath] at h
        cases h
    | ok path =>
        rw [hpath] at h
        cases h
        exact moreSteps_suffix s

end TreeInsertion
