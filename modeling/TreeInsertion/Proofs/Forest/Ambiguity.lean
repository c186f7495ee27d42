import TreeInsertion.Proofs.Forest.Determination
import TreeInsertion.Proofs.Forest.Trees

/-!
# No spurious ambiguity

The edges of a reading tell the whole account that it is made of, so no two readings with
the same first node have the same edges.
-/

namespace TreeInsertion

variable {W : Type}

/-- Whether two forests have the same first node and the same edges, in whatever order. -/
def Forest.SameAnalysis {H : Type} (f f' : Forest W H) : Prop :=
  f.trees.head?.map AnchoredTree.id = f'.trees.head?.map AnchoredTree.id ∧
    ∀ key, key ∈ f.edges.map Edge.key ↔ key ∈ f'.edges.map Edge.key

namespace Grammar

variable {H : Type} [One W] [Mul W]

/-- Accounts of accepted items with the same root and the same edges are one account. -/
theorem eq_of_same_edges {g : Grammar W} (hanchored : g.Anchored) {input : List String}
    {x y : Item W} {A B : Account} {E F : Analysis W} (hx : x ∈ (g.parse input).accepting)
    (hy : y ∈ (g.parse input).accepting) (hA : (g.parse input).Recounts A x E)
    (hB : (g.parse input).Recounts B y F) (htree : x.tree = y.tree) (hsame : E.Same F) :
    x = y ∧ A = B := by
  have hsel := g.sound_select input
  have hinv := (g.reached_parse input).inv hsel
  obtain ⟨hpassive, hroot⟩ := isPassive_and_isRootLayer_of_mem_accepting hx
  obtain ⟨hpassive', hroot'⟩ := isPassive_and_isRootLayer_of_mem_accepting hy
  have hleft : x.left = y.left := by
    have htests := (List.mem_filter.1 hx).2
    have htests' := (List.mem_filter.1 hy).2
    simp only [Bool.and_eq_true, beq_iff_eq] at htests htests'
    rw [htests.1.1.1.1.2, htests'.1.1.1.1.2]
  have halike := Item.alike_of_isRootLayer hsel (hinv.valid_of_holds hA.holds)
    (hinv.valid_of_holds hB.holds) htree hpassive hpassive' hroot hroot' hleft
  have hdistinct := (hA.grows hsel (hanchored.select input) hinv hpassive hroot).distinct.of_map
  have hdistinct' := (hB.grows hsel (hanchored.select input) hinv hpassive' hroot').distinct.of_map
  exact ((hA.determined hsel (hanchored.select input) hinv).eq hA hB halike hdistinct hdistinct'
    hsame).symm

/-- No two readings have the same first node and the same edges. -/
theorem pairwise_readings (g : Grammar W) (hanchored : g.Anchored) (input : List String) :
    ((g.parse input).readings : List (Forest W H)).Pairwise fun f f' => ¬ f.SameAnalysis f' := by
  have hsel := g.sound_select input
  have hinv := (g.reached_parse input).inv hsel
  obtain ⟨told, hdistinct, htold, hreadings⟩ := exists_accounts_of_readings (H := H) g input
  rw [hreadings, List.pairwise_map]
  refine hdistinct.imp_of_mem ?_
  rintro ⟨x, a⟩ ⟨y, b⟩ hp hq hne ⟨hroots, hkeys⟩
  obtain ⟨hx, hA⟩ := htold _ hp
  obtain ⟨hy, hB⟩ := htold _ hq
  have hgrows {z : Item W} {D : Account} {G : Analysis W} (hz : z ∈ (g.parse input).accepting)
      (hD : (g.parse input).Recounts D z G) : G.Grows z.tree := by
    obtain ⟨hpassive, hroot⟩ := isPassive_and_isRootLayer_of_mem_accepting hz
    exact hD.grows hsel (hanchored.select input) hinv hpassive hroot
  rw [Chart.head?_trees_readingOf, Chart.head?_trees_readingOf] at hroots
  have htree : x.tree = y.tree := hsel.eq_of_id_eq (hinv.valid_of_holds hA.holds).tree
    (hinv.valid_of_holds hB.holds).tree (Option.some.inj hroots)
  rw [(hgrows hx hA).edges_readingOf H, (hgrows hy hB).edges_readingOf H] at hkeys
  have hsame : Analysis.Same (a.edges (g.parse input)) (b.edges (g.parse input)) := by
    have hmem {E F : Analysis W} (hE : ∀ e ∈ E, e.first ∈ (g.select input).trees ∧
        e.second ∈ (g.select input).trees) (hF : ∀ e ∈ F, e.first ∈ (g.select input).trees ∧
        e.second ∈ (g.select input).trees) (hkey : ∀ key, key ∈ E.map Edge.key →
        key ∈ F.map Edge.key) : ∀ e ∈ E, e ∈ F := by
      intro e he
      obtain ⟨d, hd, heq⟩ := List.mem_map.1 (hkey e.key (List.mem_map_of_mem he))
      exact Edge.eq_of_key_eq hsel (hF d hd) (hE e he) heq ▸ hd
    have hE := hA.mem_trees hinv
    have hF := hB.mem_trees hinv
    exact fun e =>
      ⟨hmem hE hF (fun key => (hkeys key).1) e, hmem hF hE (fun key => (hkeys key).2) e⟩
  obtain ⟨rfl, rfl⟩ := eq_of_same_edges hanchored hx hy hA hB htree hsame
  exact hne rfl

def twoHosts : Grammar Nat :=
  ⟨[⟨0, [⟨⟨[0]⟩, [⟨.nonterminal, "S"⟩, ⟨.nonterminal, "N"⟩]⟩,
        ⟨⟨[0, 1]⟩, [⟨.nonterminal, "N"⟩, ⟨.terminal, "dog"⟩]⟩], ["dog"], 1, 1, none⟩,
    ⟨1, [⟨⟨[0]⟩, [⟨.nonterminal, "N"⟩, ⟨.terminal, "big"⟩, ⟨.foot, "N"⟩]⟩], ["big"], 1, 1,
      some ⟨[0]⟩⟩,
    ⟨2, [⟨⟨[0]⟩, [⟨.nonterminal, "S"⟩, ⟨.terminal, "big"⟩, ⟨.foot, "S"⟩]⟩], ["big"], 1, 1,
      some ⟨[0]⟩⟩],
    SymbolSet.ofList ["S"], by decide, by decide⟩

theorem pairwise_readings_two_hosts :
    twoHosts.Anchored ∧
      ((twoHosts.parse ["big", "dog"]).readings : List (Forest Nat Unit)).length = 2 ∧
      ((twoHosts.parse ["big", "dog"]).readings : List (Forest Nat Unit)).Pairwise
        fun f f' => ¬ f.SameAnalysis f' := by
  have hanchored : twoHosts.Anchored := by decide
  exact ⟨hanchored, by decide +kernel, pairwise_readings twoHosts hanchored ["big", "dog"]⟩

end Grammar

end TreeInsertion
