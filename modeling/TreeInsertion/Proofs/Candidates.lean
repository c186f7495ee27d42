import Mathlib.Data.List.Perm.Basic
import TreeInsertion.Proofs.Selection

/-!
# What a selection holds

The candidates for the trees are the rules with a root symbol at the positions where
their anchors stand, each of them once.  Another order of the rules gives the same
candidates in another order, so that only the numbers of the trees differ.
-/

namespace TreeInsertion

namespace AnchoredTree

variable {W : Type}

/-- What a tree is besides its number. -/
def place (t : AnchoredTree W) : Rule W × Nat × String :=
  (t.rule, t.anchorPos, t.root)

end AnchoredTree

namespace Selection

variable {W : Type}

/-- The rules with a root symbol whose anchors begin the path with `m + 1` words. -/
def rulesWith (rules : List (Rule W)) (path : List String) (m : Nat) : List (Rule W × String) :=
  (rules.filter fun r => r.anchors = path.take (m + 1) ∧ path.take (m + 1) ≠ []).filterMap
    fun r => r.rootSymbol.toOption.map fun root => (r, root)

theorem rulesAt_ofRules (rules : List (Rule W)) (starts : SymbolSet) (input : List String)
    (pos : Nat) :
    rulesAt (Lexicon.ofRules rules starts) input pos =
      (List.range (input.drop pos).length).flatMap (rulesWith rules (input.drop pos)) := by
  have hgroups := Trie.flatMap_matchesFrom (f := List.filterMap fun r : Rule W =>
    r.rootSymbol.toOption.map fun root => (r, root)) rfl (Lexicon.ofRules rules starts).trie 0
    (input.drop pos)
  simp only [Lexicon.find_ofRules] at hgroups
  exact hgroups

theorem nodup_rulesWith {rules : List (Rule W)} (h : rules.Nodup) (path : List String) (m : Nat) :
    (rulesWith rules path m).Nodup := by
  refine (h.filter _).filterMap fun r r' p hp hp' => ?_
  simp only [Option.mem_def, Option.map_eq_some_iff] at hp hp'
  obtain ⟨root, -, rfl⟩ := hp
  obtain ⟨root', -, heq⟩ := hp'
  exact (Prod.mk.inj heq).1.symm

theorem anchors_of_mem_rulesWith {rules : List (Rule W)} {path : List String} {m : Nat}
    {p : Rule W × String} (h : p ∈ rulesWith rules path m) :
    p.1.anchors = path.take (m + 1) := by
  obtain ⟨r, hr, hp⟩ := List.mem_filterMap.1 h
  obtain ⟨root, -, rfl⟩ := Option.map_eq_some_iff.1 hp
  exact (of_decide_eq_true (List.mem_filter.1 hr).2).1

/-- Every rule is listed once, under its own anchors. -/
theorem nodup_rulesAt {rules : List (Rule W)} (h : rules.Nodup) (starts : SymbolSet)
    (input : List String) (pos : Nat) :
    (rulesAt (Lexicon.ofRules rules starts) input pos).Nodup := by
  rw [rulesAt_ofRules, List.nodup_flatMap]
  refine ⟨fun m _ => nodup_rulesWith h _ m, ?_⟩
  refine List.nodup_range.imp_of_mem fun {m m'} hm hm' hne => ?_
  refine List.disjoint_iff_ne.2 ?_
  intro p hp p' hp' heq
  have hanchors := anchors_of_mem_rulesWith hp
  rw [heq, anchors_of_mem_rulesWith hp'] at hanchors
  have hlength := congrArg List.length hanchors
  rw [List.mem_range] at hm hm'
  rw [List.length_take, List.length_take] at hlength
  omega

theorem perm_rulesAt {rules rules' : List (Rule W)} (h : rules.Perm rules')
    (starts starts' : SymbolSet) (input : List String) (pos : Nat) :
    (rulesAt (Lexicon.ofRules rules starts) input pos).Perm
      (rulesAt (Lexicon.ofRules rules' starts') input pos) := by
  rw [rulesAt_ofRules, rulesAt_ofRules]
  exact List.Perm.flatMap_left _ fun m _ => (h.filter _).filterMap _

/-- The selected trees without their numbers. -/
theorem map_place_ofInput (lex : Lexicon W) (input : List String) :
    (ofInput lex input).trees.map AnchoredTree.place = candidates lex input := by
  rw [trees_ofInput, List.map_map]
  exact List.zipIdx_map_fst 0 _

end Selection

namespace Grammar

variable {W : Type}

theorem nodup_rules (g : Grammar W) : g.rules.Nodup :=
  .of_map Rule.index g.distinct

/-- A rule and a position tell a tree. -/
theorem nodup_place (g : Grammar W) (input : List String) :
    ((g.select input).trees.map AnchoredTree.place).Nodup := by
  rw [select, Selection.map_place_ofInput, Selection.candidates, List.nodup_flatMap]
  refine ⟨fun pos _ => ?_, ?_⟩
  · refine (Selection.nodup_rulesAt g.nodup_rules g.starts input pos).map ?_
    rintro ⟨r, root⟩ ⟨r', root'⟩ heq
    simp only [Prod.mk.injEq] at heq
    rw [heq.1, heq.2.2]
  · refine List.nodup_range.imp fun {pos pos'} hne => ?_
    refine List.disjoint_iff_ne.2 ?_
    intro p hp p' hp' heq
    obtain ⟨q, -, rfl⟩ := List.mem_map.1 hp
    obtain ⟨q', -, rfl⟩ := List.mem_map.1 hp'
    exact hne (congrArg (fun p => p.2.1) heq)

/-- Another order of the rules selects the same trees, with other numbers. -/
theorem perm_place {g g' : Grammar W} (h : g.rules.Perm g'.rules) (input : List String) :
    ((g.select input).trees.map AnchoredTree.place).Perm
      ((g'.select input).trees.map AnchoredTree.place) := by
  rw [select, select, Selection.map_place_ofInput, Selection.map_place_ofInput]
  exact List.Perm.flatMap_left _ fun pos _ =>
    (Selection.perm_rulesAt h g.starts g'.starts input pos).map _

end Grammar

end TreeInsertion
