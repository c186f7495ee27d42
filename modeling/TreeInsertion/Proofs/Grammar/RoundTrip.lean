import TreeInsertion.Grammar.Reader
import TreeInsertion.Proofs.Grammar.Statements
import TreeInsertion.Proofs.RuleOrder

/-!
# Grammars and their text

A grammar whose names, words and numbers the format can write is read back from its text.
-/

namespace TreeInsertion

/-! ## Start symbols -/

theorem readNextSymbol_name {name : String} (h : IsName name) {rest : List Char}
    (hrest : Delimited rest) :
    readNextSymbol (',' :: ' ' :: (name.toList ++ rest)) = .ok (name, rest) := by
  refine bind_eq_ok.2 ⟨_, rfl, ?_⟩
  dsimp only
  rw [skipLayout_opens h.opens]
  exact within_eq_ok.2 (readName_name h hrest.endsName)

/-- Symbols with commas between them are read back. -/
theorem readSymbols_cons {first : String} {more : List String} (hfirst : IsName first)
    (hmore : ∀ s ∈ more, IsName s) (rest : List Char) :
    readSymbols (first.toList ++ ((more.flatMap fun s => ',' :: ' ' :: s.toList) ++ ';' :: rest)) =
      .ok (first :: more, rest) := by
  have hspells : ∀ s ∈ more, Spells ';' readNextSymbol (',' :: ' ' :: s.toList) s :=
    fun s hs rest hrest => ⟨rfl, rest, readNextSymbol_name (hmore s hs) hrest, rfl⟩
  have hcommas : ∀ s ∈ more, ∀ t, Delimited (',' :: ' ' :: s.toList ++ t) :=
    fun s _ t => ⟨',', _, rfl, by decide, by decide⟩
  have hrest := delimited_texts hcommas (delimited_semicolon rest)
  have hopens := hfirst.opens.append
    ((more.flatMap fun s => ',' :: ' ' :: s.toList) ++ ';' :: rest)
  rw [readSymbols, after?_of_opens (by decide) (by decide) hopens, hopens.skipLayout, readSymbol,
    readName_name hfirst hrest.endsName]
  refine bind_eq_ok.2 ⟨_, rfl, bind_eq_ok.2 ⟨(more, rest), ?_, rfl⟩⟩
  exact readUntil_texts hspells hcommas (delimited_semicolon rest) rfl rfl

def SymbolSet.text (set : SymbolSet) : String :=
  if set.toList.isEmpty then "" else " " ++ set.render

theorem readSymbols_text {set : SymbolSet} (h : ∀ s ∈ set.toList, IsName s) (rest : List Char) :
    readSymbols (skipLayout (set.text.toList ++ ';' :: rest)) = .ok (set.toList, rest) := by
  rw [SymbolSet.text, SymbolSet.render]
  cases hsymbols : set.toList with
  | nil => rfl
  | cons first more =>
      rw [hsymbols] at h
      obtain ⟨hfirst, hmore⟩ := List.forall_mem_cons.1 h
      have htext : (" " ++ ", ".intercalate (first :: more)).toList =
          ' ' :: (first.toList ++ more.flatMap fun s => ',' :: ' ' :: s.toList) := by
        rw [String.toList_append, String.toList_intercalate, List.map_cons, intercalate_cons,
          List.flatMap_map]
        rfl
      rw [if_neg (by simp), htext, List.cons_append, List.append_assoc,
        skipLayout_opens hfirst.opens]
      exact readSymbols_cons hfirst hmore rest

/-! ## Statements -/

theorem readStatement_start {set : SymbolSet} (h : ∀ s ∈ set.toList, IsName s)
    (rest : List Char) :
    readStatement ("start".toList ++ (set.text.toList ++ ';' :: rest)) =
      .ok (.start set.toList, rest) := by
  have hdelimited : Delimited (set.text.toList ++ ';' :: rest) := by
    rw [SymbolSet.text]
    split
    · exact delimited_semicolon rest
    · rw [String.toList_append]
      exact delimited_blank _
  have hname : IsName "start" := by decide
  refine bind_eq_ok.2 ⟨_, readName_name hname hdelimited.endsName, ?_⟩
  exact bind_eq_ok.2 ⟨_, readSymbols_text h rest, rfl⟩

theorem readStatement_rule {r : Rule Float} (h : r.Writable) (hchecked : r.Checked)
    (rest : List Char) :
    readStatement (r.render.toList ++ rest) = .ok (.rule r, rest) := by
  rw [Rule.toList_render, List.append_assoc]
  refine bind_eq_ok.2 ⟨_, readName_keyword "rule" (by decide) (r.body ++ rest), ?_⟩
  have hopens : Opens r.body := (opens_repr r.index).append _
  dsimp only
  rw [skipLayout_opens hopens]
  exact bind_eq_ok.2 ⟨_, readRule_body h hchecked rest, rfl⟩

theorem readStatements_cons {s rest tail : List Char} {statement : Statement}
    {statements : List Statement} (hfirst : readStatement (skipLayout s) = .ok (statement, rest))
    (hrest : readStatements rest = .ok (statements, tail)) :
    readStatements s = .ok (statement :: statements, tail) := by
  have hlt := readStatement_lt hfirst
  have hne : ¬ (skipLayout s).isEmpty = true := by
    intro hempty
    rw [List.isEmpty_iff.1 hempty] at hlt
    exact Nat.not_lt_zero _ hlt
  rw [readStatements, if_neg hne]
  split
  · rename_i e he
    rw [hfirst] at he
    cases he
  · rename_i statement' rest' hok
    rw [hfirst] at hok
    cases hok
    rw [hrest]

/-- Rules with blank lines between them are read back in order. -/
theorem readStatements_rules {rules : List (Rule Float)} (h : ∀ r ∈ rules, r.Writable)
    (hchecked : ∀ r ∈ rules, r.Checked) {s : List Char}
    (hs : skipLayout s =
      skipLayout (rules.flatMap fun r => '\n' :: (r.render.toList ++ ['\n']))) :
    readStatements s = .ok (rules.map .rule, []) := by
  induction rules generalizing s with
  | nil =>
      have hempty : skipLayout s = [] := hs
      rw [readStatements, hempty]
      rfl
  | cons r rs ih =>
      obtain ⟨hr, hrs⟩ := List.forall_mem_cons.1 h
      obtain ⟨hcheckedr, hcheckedrs⟩ := List.forall_mem_cons.1 hchecked
      have hopens : Opens r.render.toList := by
        rw [Rule.toList_render]
        exact Opens.append ⟨'r', _, rfl, .inr (by decide)⟩ _
      have hskip : skipLayout s = r.render.toList ++
          '\n' :: (rs.flatMap fun r => '\n' :: (r.render.toList ++ ['\n'])) := by
        have hblank (t : List Char) : skipLayout ('\n' :: (r.render.toList ++ t)) =
            r.render.toList ++ t := by
          rw [skipLayout_blank (by decide), (hopens.append t).skipLayout]
        rw [hs, List.flatMap_cons, List.cons_append, List.append_assoc, hblank]
        rfl
      have hfirst := readStatement_rule hr hcheckedr
        ('\n' :: (rs.flatMap fun r => '\n' :: (r.render.toList ++ ['\n'])))
      rw [← hskip] at hfirst
      exact readStatements_cons hfirst (ih hrs hcheckedrs (skipLayout_blank (by decide) _))

/-! ## Grammars -/

namespace SymbolSet

theorem insertSorted_eq_cons {s : String} {ts : List String} (h : ∀ t ∈ ts, s < t) :
    insertSorted s ts = s :: ts := by
  cases ts with
  | nil => rfl
  | cons t rest => exact if_pos (h t List.mem_cons_self)

/-- A set is that of its members. -/
theorem ofList_toList (set : SymbolSet) : ofList set.toList = set := by
  obtain ⟨symbols, hsorted⟩ := set
  have hlist : (ofList symbols).toList = symbols := by
    induction symbols with
    | nil => rfl
    | cons s rest ih =>
        obtain ⟨hhead, htail⟩ := List.pairwise_cons.1 hsorted
        have hrest := ih htail
        show insertSorted s (ofList rest).toList = s :: rest
        rw [hrest, insertSorted_eq_cons hhead]
  cases hset : ofList symbols with
  | mk members hmembers =>
      rw [hset] at hlist
      cases hlist
      rfl

end SymbolSet

namespace Grammar

/-- A grammar whose start symbols and rules the format can write. -/
structure Writable (g : Grammar Float) : Prop where
  starts : ∀ s ∈ g.starts.toList, IsName s
  rules : ∀ r ∈ g.rules, r.Writable

instance (g : Grammar Float) : Decidable g.Writable :=
  decidable_of_iff ((∀ s ∈ g.starts.toList, IsName s) ∧ ∀ r ∈ g.rules, r.Writable)
    ⟨fun ⟨hstarts, hrules⟩ => ⟨hstarts, hrules⟩, fun h => ⟨h.starts, h.rules⟩⟩

theorem toList_render (g : Grammar Float) :
    g.render.toList = "start".toList ++ (g.starts.text.toList ++ ';' :: '\n' ::
      (g.rules.flatMap fun r => '\n' :: (r.render.toList ++ ['\n']))) := by
  have hrules : (String.join (g.rules.map fun r => "\n" ++ r.render ++ "\n")).toList =
      g.rules.flatMap fun r => '\n' :: (r.render.toList ++ ['\n']) := by
    simp only [toList_join_map, String.toList_append]
    rfl
  rw [← hrules]
  unfold render
  simp only [String.toList_append, List.append_assoc]
  rfl

theorem readStatements_render {g : Grammar Float} (h : g.Writable) :
    readStatements g.render.toList = .ok (.start g.starts.toList :: g.rules.map .rule, []) := by
  have hchecked : ∀ r ∈ g.rules, r.Checked := fun r hr => (g.wellFormed r hr).checked
  have hrules : readStatements ('\n' :: (g.rules.flatMap fun r =>
      '\n' :: (r.render.toList ++ ['\n']))) = .ok (g.rules.map .rule, []) :=
    readStatements_rules h.rules hchecked (skipLayout_blank (by decide) _)
  have hstart : Opens "start".toList := ⟨'s', _, rfl, .inr (by decide)⟩
  have hfirst := readStatement_start h.starts ('\n' :: (g.rules.flatMap fun r =>
      '\n' :: (r.render.toList ++ ['\n'])))
  rw [toList_render]
  rw [← (hstart.append _).skipLayout] at hfirst
  exact readStatements_cons hfirst hrules

theorem rulesOf_statements (symbols : List String) (rules : List (Rule Float)) :
    rulesOf (.start symbols :: rules.map .rule) = rules := by
  rw [rulesOf, List.filterMap_cons_none rfl, List.filterMap_map]
  exact List.filterMap_some

theorem startsOf?_statements (symbols : List String) (rules : List (Rule Float)) :
    startsOf? (.start symbols :: rules.map .rule) = some symbols := by
  simp [startsOf?, List.filterMap_map]

/-- Statements make the grammar whose rules and start symbols they give. -/
theorem ofStatements_eq_ok {g : Grammar Float} {statements : List Statement}
    (hrules : rulesOf statements = g.rules) (hne : g.rules ≠ [])
    (hstarts : startsOf? statements = some g.starts.toList) : ofStatements statements = .ok g := by
  obtain ⟨first, rest, hcons⟩ := List.exists_cons_of_ne_nil hne
  have hstartsFor : startsFor statements first = .ok g.starts.toList := by
    rw [startsFor, hstarts]
  rw [ofStatements, hrules, hcons]
  simp only [hstartsFor, SymbolSet.ofList_toList]
  rw [← hcons, ofRules_eq_ok]

/--
A grammar with a rule is read back from its text, down to the weights, which the shortest
numerals determine.
-/
theorem read_render {g : Grammar Float} (h : g.Writable) (hne : g.rules ≠ []) :
    read g.render = .ok g := by
  rw [read, ofChars, readStatements_render h]
  exact ofStatements_eq_ok (rulesOf_statements _ _) hne (startsOf?_statements _ _)

def barking : Grammar Float where
  rules := [
    ⟨0, [⟨⟨[0]⟩, [⟨.nonterminal, "NP"⟩, ⟨.terminal, "dog"⟩]⟩], ["dog"], 2,
      .ofBits 0x3fe0000000000000, none⟩,
    ⟨1, [⟨⟨[0]⟩, [⟨.nonterminal, "S"⟩, ⟨.substitution, "NP"⟩, ⟨.terminal, "barks"⟩]⟩],
      ["barks"], 0, .ofBits 0x3ff0000000000000, none⟩,
    ⟨2, [⟨⟨[0]⟩, [⟨.nonterminal, "S"⟩, ⟨.foot, "S"⟩, ⟨.nonterminal, "ADV"⟩]⟩,
        ⟨⟨[0, 2]⟩, [⟨.nonterminal, "ADV"⟩, ⟨.terminal, "loudly"⟩, ⟨.terminal, "!"⟩]⟩],
      ["loudly", "!"], 0, .ofBits 0x3ff0000000000000, some ⟨[0]⟩⟩]
  starts := SymbolSet.ofList ["S"]
  wellFormed := by decide
  distinct := by decide

theorem barking_writable : barking.Writable := by
  decide +kernel

theorem read_render_barking :
    barking.Writable ∧ barking.rules ≠ [] ∧ read barking.render = .ok barking :=
  ⟨barking_writable, by decide, read_render barking_writable (by decide)⟩

end Grammar

end TreeInsertion
