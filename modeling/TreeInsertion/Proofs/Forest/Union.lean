import TreeInsertion.Proofs.Forest.Enumeration
import TreeInsertion.Proofs.Forest.Packing

/-!
# The union of the readings

In a chart without cycles every item has an analysis, so each derivation that an accepted
item goes back to takes part in some reading.  The packed forest is then the union of the
readings, though neither is made from the other.
-/

namespace TreeInsertion

open Relation

variable {W H K : Type}

namespace Chart

variable {c : Chart W}

/-! ## What the enumeration goes through -/

theorem mem_enumerate (h : c.Acyclic) {id : Nat} {analysis : Analysis W} :
    analysis ∈ c.enumerate h id ↔ ∃ why ∈ c.derivationsOf id,
      ∃ way ∈ ways (why.antecedents.map (c.enumerate h)),
        analysis = way.flatten ++ (c.edgeOf? why).toList := by
  rw [enumerate_eq]
  simp [eq_comm]

/-- The edges of an analysis are from derivations that its item goes back to. -/
theorem exists_edgesOf_of_mem_enumerate (h : c.Acyclic) {id : Nat} {analysis : Analysis W}
    (hanalysis : analysis ∈ c.enumerate h id) {e : Edge (AnchoredTree W)} (he : e ∈ analysis) :
    ∃ a, ReflTransGen c.IsAntecedent id a ∧ e ∈ c.edgesOf a := by
  induction id using h.wellFounded.induction generalizing analysis with
  | _ id ih =>
      obtain ⟨why, hwhy, way, hway, rfl⟩ := (mem_enumerate h).1 hanalysis
      rcases List.mem_append.1 he with hpart | hown
      · obtain ⟨part, hmem, he⟩ := List.mem_flatten.1 hpart
        obtain ⟨analyses, hanalyses, hmem⟩ := exists_mem_of_mem_way hway hmem
        obtain ⟨a, ha, rfl⟩ := List.mem_map.1 hanalyses
        have hantecedent : c.IsAntecedent id a := List.mem_flatMap.2 ⟨why, hwhy, ha⟩
        obtain ⟨b, hb, he⟩ := ih a hantecedent hmem he
        exact ⟨b, .head hantecedent hb, he⟩
      · exact ⟨id, .refl, List.mem_filterMap.2 ⟨why, hwhy, by simpa using hown⟩⟩

theorem ne_nil_of_antecedents (h : c.Acyclic) {id : Nat} {why : Derivation}
    (hwhy : why ∈ c.derivationsOf id)
    (hantecedents : ∀ a, c.IsAntecedent id a → c.enumerate h a ≠ []) :
    ∀ analyses ∈ why.antecedents.map (c.enumerate h), analyses ≠ [] := by
  intro analyses hanalyses
  obtain ⟨a, ha, rfl⟩ := List.mem_map.1 hanalyses
  exact hantecedents a (List.mem_flatMap.2 ⟨why, hwhy, ha⟩)

section Derived

variable [Mul W] {input : List String}

/-- Every item has an analysis. -/
theorem enumerate_ne_nil (h : c.Acyclic) (hderived : ∀ x ∈ c.items, Derived input c x) {id : Nat}
    (hid : id < c.items.size) : c.enumerate h id ≠ [] := by
  induction id using h.wellFounded.induction with
  | _ id ih =>
      obtain ⟨why, hwhy⟩ := List.exists_mem_of_ne_nil _ (derivationsOf_ne_nil hderived hid)
      have hparts := ne_nil_of_antecedents h hwhy fun a ha =>
        ih a ha (lt_size_of_isAntecedent hderived ha)
      obtain ⟨way, hway⟩ := List.exists_mem_of_ne_nil _ (ways_ne_nil hparts)
      exact List.ne_nil_of_mem ((mem_enumerate h).2 ⟨why, hwhy, way, hway, rfl⟩)

/-- The antecedents of a derivation have analyses, so they can be chosen from. -/
theorem enumerate_antecedents_ne_nil (h : c.Acyclic) (hderived : ∀ x ∈ c.items, Derived input c x)
    {id : Nat} {why : Derivation} (hwhy : why ∈ c.derivationsOf id) :
    ∀ analyses ∈ why.antecedents.map (c.enumerate h), analyses ≠ [] :=
  ne_nil_of_antecedents h hwhy fun _ ha =>
    enumerate_ne_nil h hderived (lt_size_of_isAntecedent hderived ha)

/-- Every edge of a derivation that an item goes back to is in one of its analyses. -/
theorem exists_mem_enumerate (h : c.Acyclic) (hderived : ∀ x ∈ c.items, Derived input c x)
    {id a : Nat} (hpath : ReflTransGen c.IsAntecedent id a) {e : Edge (AnchoredTree W)}
    (he : e ∈ c.edgesOf a) : ∃ analysis ∈ c.enumerate h id, e ∈ analysis := by
  -- The path is taken from its upper end, where the analyses are put together.
  induction hpath using ReflTransGen.head_induction_on with
  | refl =>
      obtain ⟨why, hwhy, hedge⟩ := List.mem_filterMap.1 he
      obtain ⟨way, hway⟩ := List.exists_mem_of_ne_nil _
        (ways_ne_nil (enumerate_antecedents_ne_nil h hderived hwhy))
      exact ⟨_, (mem_enumerate h).2 ⟨why, hwhy, way, hway, rfl⟩, by simp [hedge]⟩
  | @head id b hstep _ ih =>
      obtain ⟨part, hpart, he⟩ := ih
      obtain ⟨why, hwhy, hb⟩ := List.mem_flatMap.1 hstep
      obtain ⟨way, hway, hmem⟩ := exists_way_of_mem (enumerate_antecedents_ne_nil h hderived hwhy)
        (List.mem_map_of_mem hb) hpart
      refine ⟨_, (mem_enumerate h).2 ⟨why, hwhy, way, hway, rfl⟩, ?_⟩
      exact List.mem_append_left _ (List.mem_flatten.2 ⟨part, hmem, he⟩)

end Derived

/-! ## Packed and unpacked -/

section Union

variable {sel : Selection W} {starts : SymbolSet} {input : List String}

theorem mem_readings_iff (h : c.Acyclic) {f : Forest W H} :
    f ∈ (c.readings : List (Forest W H)) ↔
      ∃ x ∈ c.accepting, ∃ analysis ∈ c.enumerate h x.id, readingOf x.tree analysis = f := by
  simp only [readings_eq_enumerate h, readingOf, List.mem_flatMap, List.mem_map]

/-- A reading holds the tree of an accepted item, and the edges of one of its analyses. -/
theorem comprises_readingOf (hsel : sel.Sound) (hinv : c.Inv sel starts input.length)
    (h : c.Acyclic) {x : Item W} (hx : x ∈ c.accepting) {analysis : Analysis W}
    (hanalysis : analysis ∈ c.enumerate h x.id) :
    (readingOf x.tree analysis : Forest W H).Comprises sel (fun t => t = x.tree)
      fun e => e ∈ analysis := by
  have htree := (hinv.valid x (mem_items_of_mem_accepting hx)).tree
  have hselected (e : Edge (AnchoredTree W)) (he : e ∈ analysis) :
      e.first ∈ sel.trees ∧ e.second ∈ sel.trees := by
    obtain ⟨a, -, he⟩ := exists_edgesOf_of_mem_enumerate h hanalysis he
    exact hinv.ends_selected e he
  have hroot := (Forest.comprises_empty (H := H) sel).addNode hsel htree
  exact ((hroot.addAll hsel hselected).of_trees_iff fun t => by simp).of_edges_iff
    fun e => by simp

variable [Mul W]

theorem usesEdge_iff (hsel : sel.Sound) (hinv : c.Inv sel starts input.length)
    (hderived : ∀ x ∈ c.items, Derived input c x) (h : c.Acyclic) {e : Edge (AnchoredTree W)} :
    c.UsesEdge e ↔ ∃ f ∈ (c.readings : List (Forest W H)), e ∈ f.edges := by
  constructor
  · rintro ⟨id, ⟨x, hx, hpath⟩, he⟩
    obtain ⟨analysis, hanalysis, he⟩ := exists_mem_enumerate h hderived hpath he
    exact ⟨_, (mem_readings_iff h).2 ⟨x, hx, analysis, hanalysis, rfl⟩,
      ((comprises_readingOf hsel hinv h hx hanalysis).edges e).2 he⟩
  · rintro ⟨f, hf, he⟩
    obtain ⟨x, hx, analysis, hanalysis, rfl⟩ := (mem_readings_iff h).1 hf
    have hmem := ((comprises_readingOf hsel hinv h hx hanalysis).edges e).1 he
    obtain ⟨id, hpath, he⟩ := exists_edgesOf_of_mem_enumerate h hanalysis hmem
    exact ⟨id, ⟨x, hx, hpath⟩, he⟩

/-- The nodes of the readings are accepted trees and the ends of the edges in use. -/
theorem exists_mem_trees_iff (hsel : sel.Sound) (hinv : c.Inv sel starts input.length)
    (hderived : ∀ x ∈ c.items, Derived input c x) (h : c.Acyclic) {t : AnchoredTree W} :
    (∃ f ∈ (c.readings : List (Forest W H)), t ∈ f.trees) ↔
      (∃ x ∈ c.accepting, t = x.tree) ∨ ∃ e, c.UsesEdge e ∧ (t = e.first ∨ t = e.second) := by
  constructor
  · rintro ⟨f, hf, ht⟩
    obtain ⟨x, hx, analysis, hanalysis, rfl⟩ := (mem_readings_iff h).1 hf
    have hcomprises := comprises_readingOf (H := H) hsel hinv h hx hanalysis
    rcases (hcomprises.trees t).1 ht with rfl | ⟨e, he, hend⟩
    · exact Or.inl ⟨x, hx, rfl⟩
    · refine Or.inr ⟨e, (usesEdge_iff (H := H) hsel hinv hderived h).2 ?_, hend⟩
      exact ⟨_, hf, (hcomprises.edges e).2 he⟩
  · rintro (⟨x, hx, rfl⟩ | ⟨e, he, hend⟩)
    · have hlt := hinv.filed.id_lt_size (mem_items_of_mem_accepting hx)
      obtain ⟨analysis, hanalysis⟩ :=
        List.exists_mem_of_ne_nil _ (enumerate_ne_nil h hderived hlt)
      exact ⟨_, (mem_readings_iff h).2 ⟨x, hx, analysis, hanalysis, rfl⟩,
        ((comprises_readingOf hsel hinv h hx hanalysis).trees x.tree).2 (Or.inl rfl)⟩
    · obtain ⟨f, hf, he⟩ := (usesEdge_iff (H := H) hsel hinv hderived h).1 he
      obtain ⟨x, hx, analysis, hanalysis, rfl⟩ := (mem_readings_iff h).1 hf
      have hcomprises := comprises_readingOf (H := H) hsel hinv h hx hanalysis
      exact ⟨_, hf, (hcomprises.trees t).2 (Or.inr ⟨e, (hcomprises.edges e).1 he, hend⟩)⟩

end Union

end Chart

namespace Grammar

/-- The packed forest of a chart without cycles has the edges and the nodes of its readings. -/
theorem mem_packedForest_iff [One W] [Mul W] (g : Grammar W) (input : List String)
    (h : (g.parse input).Acyclic) :
    (∀ e, e ∈ ((g.parse input).packedForest : Forest W H).edges ↔
        ∃ f ∈ ((g.parse input).readings : List (Forest W K)), e ∈ f.edges) ∧
      ∀ t, t ∈ ((g.parse input).packedForest : Forest W H).trees ↔
        ∃ f ∈ ((g.parse input).readings : List (Forest W K)), t ∈ f.trees := by
  have hsel := g.sound_select input
  have hinv := (g.reached_parse input).inv hsel
  have hderived := (g.reached_parse input).derived hsel
  have hcomprises := Chart.comprises_packedForest (H := H) hsel hinv
  exact ⟨fun e => (hcomprises.edges e).trans (Chart.usesEdge_iff hsel hinv hderived h),
    fun t => (hcomprises.trees t).trans (Chart.exists_mem_trees_iff hsel hinv hderived h).symm⟩

theorem mem_packedForest_two_senses :
    (twoSenses.parse ["bat", "sleeps"]).Acyclic ∧
      ((twoSenses.parse ["bat", "sleeps"]).packedForest : Forest Nat Unit).edges.length = 2 ∧
      ∀ e, e ∈ ((twoSenses.parse ["bat", "sleeps"]).packedForest : Forest Nat Unit).edges ↔
        ∃ f ∈ ((twoSenses.parse ["bat", "sleeps"]).readings : List (Forest Nat Unit)),
          e ∈ f.edges :=
  ⟨acyclic_two_senses, by decide +kernel,
    (mem_packedForest_iff twoSenses _ acyclic_two_senses).1⟩

end Grammar

end TreeInsertion
