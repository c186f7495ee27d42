import TreeInsertion.Forest.Readings
import TreeInsertion.Proofs.RuleOrder

/-!
# Rules that do not matter

A rule takes part in the analysis of an input only if it has anchors and they stand there
one after the other.  Grammars that agree in the rules that do, and in their start symbols,
have the same chart for the input, numbers included.
-/

namespace TreeInsertion

variable {W : Type}

def Rule.Concerns (r : Rule W) (input : List String) : Prop :=
  r.anchors ≠ [] ∧ r.anchors <:+: input

instance (r : Rule W) (input : List String) : Decidable (r.Concerns input) :=
  inferInstanceAs (Decidable (_ ∧ _))

namespace Selection

/-- What follows a position of the input, up to some word, is a part of the input. -/
theorem rulesWith_filter (rules : List (Rule W)) (input : List String) (pos m : Nat) :
    rulesWith (rules.filter fun r => r.Concerns input) (input.drop pos) m =
      rulesWith rules (input.drop pos) m := by
  have hpart : (input.drop pos).take (m + 1) <:+: input :=
    (List.take_prefix _ _).isInfix.trans (List.drop_suffix _ _).isInfix
  unfold rulesWith
  rw [List.filter_filter]
  refine congrArg _ (List.filter_congr fun r _ => ?_)
  rw [Bool.eq_iff_iff]
  simp only [Bool.and_eq_true, decide_eq_true_eq]
  refine and_iff_left_of_imp ?_
  rintro ⟨hanchors, hne⟩
  exact ⟨hanchors ▸ hne, hanchors ▸ hpart⟩

theorem ofInput_filter (rules : List (Rule W)) (starts starts' : SymbolSet)
    (input : List String) :
    ofInput (Lexicon.ofRules (rules.filter fun r => r.Concerns input) starts) input =
      ofInput (Lexicon.ofRules rules starts') input := by
  have hrules (pos : Nat) :
      rulesAt (Lexicon.ofRules (rules.filter fun r => r.Concerns input) starts) input pos =
        rulesAt (Lexicon.ofRules rules starts') input pos := by
    rw [rulesAt_ofRules, rulesAt_ofRules, funext (rulesWith_filter rules input pos)]
  simp only [ofInput_eq_foldl_give, candidates, hrules]

end Selection

namespace Grammar

/-- The trees for an input come from the rules that concern it. -/
theorem select_congr {g g' : Grammar W} {input : List String}
    (hrules : (g'.rules.filter fun r => r.Concerns input) =
      g.rules.filter fun r => r.Concerns input) : g'.select input = g.select input := by
  unfold select lexicon
  rw [← Selection.ofInput_filter g'.rules g'.starts, hrules, Selection.ofInput_filter]

theorem parse_congr [One W] [Mul W] {g g' : Grammar W} {input : List String}
    (hrules : (g'.rules.filter fun r => r.Concerns input) =
      g.rules.filter fun r => r.Concerns input)
    (hstarts : g'.starts = g.starts) : g'.parse input = g.parse input := by
  have hselect := select_congr hrules
  rw [select, select] at hselect
  rw [parse, parse, hselect, hstarts]

/-- A further rule may stand anywhere in the list. -/
theorem exists_ofRules_of_insert {before after : List (Rule W)} {starts : SymbolSet}
    {g : Grammar W} (hg : ofRules (before ++ after) starts = .ok g) {r : Rule W}
    (hr : r.WellFormed) (hfresh : ∀ s ∈ before ++ after, s.index ≠ r.index) :
    ∃ g', ofRules (before ++ r :: after) starts = .ok g' ∧
      g'.rules = before ++ r :: after ∧ g'.starts = starts := by
  obtain ⟨hrules, rfl⟩ := rules_of_ofRules hg
  have hperm : (before ++ r :: after).Perm (r :: g.rules) := hrules ▸ List.perm_middle
  have hdistinct : ((r :: g.rules).map Rule.index).Nodup := by
    refine List.nodup_cons.2 ⟨fun hmem => ?_, g.distinct⟩
    obtain ⟨s, hs, hsame⟩ := List.mem_map.1 hmem
    exact hfresh s (hrules ▸ hs) hsame
  refine ⟨_, ofRules_eq_ok ⟨before ++ r :: after, g.starts, ?_, ?_⟩, rfl, rfl⟩
  · intro s hs
    rcases List.mem_cons.1 (hperm.mem_iff.1 hs) with rfl | hs
    · exact hr
    · exact g.wellFormed s hs
  · exact (hperm.map Rule.index).nodup_iff.2 hdistinct

variable [One W] [Mul W]

/--
A well-formed rule with a new index can be put anywhere into a list of rules, and for every
input in which its anchors do not stand the charts are the same, and so are the packed
forests and the readings.
-/
theorem parse_insert {H : Type} {before after : List (Rule W)} {starts : SymbolSet}
    {g : Grammar W} (hg : ofRules (before ++ after) starts = .ok g) {r : Rule W}
    (hr : r.WellFormed) (hfresh : ∀ s ∈ before ++ after, s.index ≠ r.index) :
    ∃ g', ofRules (before ++ r :: after) starts = .ok g' ∧
      ∀ input, r.anchors = [] ∨ ¬ r.anchors <:+: input →
        g'.parse input = g.parse input ∧
        ((g'.parse input).packedForest : Forest W H) = (g.parse input).packedForest ∧
        ((g'.parse input).readings : List (Forest W H)) = (g.parse input).readings := by
  obtain ⟨hrules, hstarts⟩ := rules_of_ofRules hg
  obtain ⟨g', hg', hrules', hstarts'⟩ := exists_ofRules_of_insert hg hr hfresh
  refine ⟨g', hg', fun input hinput => ?_⟩
  have hunconcerned : ¬ r.Concerns input := fun h => hinput.elim h.1 fun hpart => hpart h.2
  have hparse : g'.parse input = g.parse input := by
    refine parse_congr ?_ (hstarts'.trans hstarts.symm)
    rw [hrules, hrules', List.filter_append, List.filter_append,
      List.filter_cons_of_neg (by simpa using hunconcerned)]
  rw [hparse]
  exact ⟨rfl, rfl, rfl⟩

def cat : Rule Nat :=
  ⟨2, [⟨⟨[0]⟩, [⟨.nonterminal, "N"⟩, ⟨.terminal, "cat"⟩]⟩], ["cat"], 1, 1, none⟩

theorem parse_insert_cat :
    ∃ g', ofRules (adjectives.rules.take 1 ++ cat :: adjectives.rules.drop 1)
        adjectives.starts = .ok g' ∧
      g'.parse ["big", "dog"] = adjectives.parse ["big", "dog"] ∧
      (g'.parse ["big", "dog"]).accepts = true := by
  have hg : ofRules (adjectives.rules.take 1 ++ adjectives.rules.drop 1) adjectives.starts =
      .ok adjectives := ofRules_eq_ok adjectives
  have hcat : cat.WellFormed := by decide
  obtain ⟨g', hg', hparse⟩ := parse_insert (H := Unit) hg hcat (by decide)
  have hsame := (hparse ["big", "dog"] (Or.inr (by decide))).1
  refine ⟨g', hg', hsame, ?_⟩
  rw [hsame]
  decide +kernel

end Grammar

end TreeInsertion
