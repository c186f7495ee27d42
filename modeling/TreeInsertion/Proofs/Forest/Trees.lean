import TreeInsertion.Proofs.Forest.Windows

/-!
# Readings are trees

The nodes of a reading are the tree at its root and the trees that its edges put in, each
once, and every edge leads on from the root.  Since the windows of the trees are apart,
the edges of an account make a tree, and all of them are in the reading.
-/

namespace TreeInsertion

open Relation

variable {W H : Type}

namespace Forest

def Links (f : Forest W H) (i j : Nat) : Prop :=
  ∃ e ∈ f.edges, e.first.id = i ∧ e.second.id = j

/-- Whether the forest is one tree with the given root, over trees with windows apart. -/
structure IsTree (f : Forest W H) (root : AnchoredTree W) : Prop where
  first : f.trees.head? = some root
  distinct : (f.trees.map AnchoredTree.id).Nodup
  /-- Nothing leads to the root. -/
  source : ∀ e ∈ f.edges, e.second.id ≠ root.id
  /-- One edge leads to every other node. -/
  target : ∀ t ∈ f.trees, t.id ≠ root.id → (f.edges.countP fun e => e.second.id = t.id) = 1
  reachable : ∀ t ∈ f.trees, ReflTransGen f.Links root.id t.id
  size : f.edges.length + 1 = f.trees.length
  apart : f.trees.Pairwise fun t u => t.window.Disjoint u.window

end Forest

/-! ## Edges that make a tree -/

/-- Whether the edges put trees into the root and into each other, none of them twice. -/
structure Analysis.Grows (E : Analysis W) (root : AnchoredTree W) : Prop where
  stems : E.StemsAre fun s => s.first = root
  distinct : ((root :: E.map Edge.second).map AnchoredTree.id).Nodup

namespace Analysis.Grows

variable {E : Analysis W} {root : AnchoredTree W}

theorem nodup_keys (h : E.Grows root) : (E.map Edge.key).Nodup := by
  have hids := (List.nodup_cons.1 h.distinct).2
  rw [List.map_map] at hids
  refine .of_map Edge.second ?_
  rw [List.map_map]
  exact hids

variable (H) in
/-- A reading keeps all edges. -/
theorem edges_readingOf (h : E.Grows root) :
    (Chart.readingOf root E : Forest W H).edges = E := by
  have hroot : ((Forest.empty : Forest W H).addNode root).2.edges = [] := by
    rw [Forest.edges_addNode]
    rfl
  rw [Chart.readingOf_eq, Forest.edges_addAll, hroot, List.nil_append]
  rw [hroot, List.nil_append]
  exact h.nodup_keys

variable (H) in
/-- The nodes of a reading are the root and the trees that are put in. -/
theorem perm_trees_readingOf (h : E.Grows root) :
    (Chart.readingOf root E : Forest W H).trees.Perm (root :: E.map Edge.second) := by
  have hcoherent := Chart.coherent_readingOf (H := H) root E
  have hsubset : (Chart.readingOf root E : Forest W H).trees ⊆ root :: E.map Edge.second := by
    intro t ht
    rw [Chart.readingOf_eq] at ht
    rcases Forest.mem_trees_addAll ht with hroot | ⟨e, he, rfl | rfl⟩
    · rw [Chart.trees_root, List.mem_singleton] at hroot
      exact List.mem_cons.2 (Or.inl hroot)
    · exact h.stems.first_mem he
    · exact List.mem_cons_of_mem root (List.mem_map_of_mem he)
  have hsupset : root :: E.map Edge.second ⊆ (Chart.readingOf root E : Forest W H).trees := by
    intro t ht
    rcases List.mem_cons.1 ht with rfl | hput
    · exact List.mem_of_mem_head? (Chart.head?_trees_readingOf t E)
    · obtain ⟨e, he, rfl⟩ := List.mem_map.1 hput
      rw [← h.edges_readingOf H] at he
      obtain ⟨u, hu, hid⟩ := (hcoherent.ends e he).2
      rw [← List.inj_on_of_nodup_map h.distinct (hsubset hu) ht hid]
      exact hu
  exact (hcoherent.nodup_ids.of_map.subperm hsubset).antisymm
    (h.distinct.of_map.subperm hsupset)

/-- The root leads to every tree that a stem goes to. -/
theorem reachable_of_carries (h : E.Grows root) {s e : Edge (AnchoredTree W)} (hs : s ∈ E)
    (hfirst : s.first = root) (hcarries : E.Carries s e) :
    ReflTransGen (Chart.readingOf root E : Forest W H).Links root.id e.second.id := by
  have hedge {d : Edge (AnchoredTree W)} (hd : d ∈ E) :
      (Chart.readingOf root E : Forest W H).Links d.first.id d.second.id := by
    rw [← h.edges_readingOf H] at hd
    exact ⟨d, hd, rfl, rfl⟩
  induction hcarries with
  | refl => exact .single (hfirst ▸ hedge hs)
  | tail _ hlast ih => exact ih.tail (hlast.2 ▸ hedge hlast.1)

variable (H) in
theorem isTree_readingOf (h : E.Grows root)
    (hwindows : (root :: E.map Edge.second).Pairwise fun t u => t.window.Disjoint u.window) :
    (Chart.readingOf root E : Forest W H).IsTree root := by
  have hedges := h.edges_readingOf H
  have hperm := h.perm_trees_readingOf H
  obtain ⟨hroot, hids⟩ := List.nodup_cons.1 h.distinct
  rw [List.map_map] at hroot hids
  refine ⟨Chart.head?_trees_readingOf root E, (Chart.coherent_readingOf root E).nodup_ids,
    ?_, ?_, ?_, ?_, ?_⟩
  · intro e he heq
    rw [hedges] at he
    exact hroot (List.mem_map.2 ⟨e, he, heq⟩)
  · intro t ht hne
    rcases List.mem_cons.1 (hperm.mem_iff.1 ht) with rfl | hput
    · exact absurd rfl hne
    · obtain ⟨e, he, rfl⟩ := List.mem_map.1 hput
      have hcount := List.count_eq_one_of_mem hids (List.mem_map_of_mem he)
      rw [List.count, List.countP_map] at hcount
      rw [hedges, ← hcount]
      exact List.countP_congr fun d _ => by simp
  · intro t ht
    rcases List.mem_cons.1 (hperm.mem_iff.1 ht) with rfl | hput
    · exact .refl
    · obtain ⟨e, he, rfl⟩ := List.mem_map.1 hput
      obtain ⟨s, hs, hfirst, hcarries⟩ := h.stems e he
      exact h.reachable_of_carries hs hfirst hcarries
  · rw [hedges, hperm.length_eq, List.length_cons, List.length_map]
  · exact hperm.symm.pairwise hwindows fun hapart => List.disjoint_symm hapart

end Analysis.Grows

/-! ## The edges of an account -/

namespace Chart

variable [Mul W] {sel : Selection W} {starts : SymbolSet} {n : Nat} {c : Chart W}

/-- The windows of the trees of a finished tree are apart. -/
theorem Recounts.pairwise_windows (hsel : sel.Sound) (hanchored : sel.Anchored)
    (hinv : c.Inv sel starts n) {A : Account} {x : Item W} {E : Analysis W}
    (h : c.Recounts A x E) (hpassive : x.isPassive = true) (hroot : x.isRootLayer = true) :
    (x.tree :: E.map Edge.second).Pairwise fun t u => t.window.Disjoint u.window := by
  obtain ⟨own, hown⟩ := h.exists_hasRead hsel hanchored hinv
  have htree := (hinv.valid_of_holds h.holds).tree
  have hspread := hown.spread_window hsel hanchored htree hpassive hroot
  have hnodup : ((x.tree :: E.map Edge.second).flatMap AnchoredTree.window).Nodup := by
    rw [List.flatMap_cons, List.flatMap_map]
    exact hspread.nodup
  exact (List.nodup_flatMap.1 hnodup).2

/-- The edges of an account are between trees of the selection. -/
theorem Recounts.mem_trees (hinv : c.Inv sel starts n) {A : Account} {x : Item W}
    {E : Analysis W} (h : c.Recounts A x E) :
    ∀ e ∈ E, e.first ∈ sel.trees ∧ e.second ∈ sel.trees := by
  have htree {A : Account} {y : Item W} {F : Analysis W} (hy : c.Recounts A y F) :
      y.tree ∈ sel.trees := (hinv.valid_of_holds hy.holds).tree
  induction h with
  | opened => simp
  | scan _ _ _ _ _ ih => exact ih
  | foot _ _ _ _ ih => exact ih
  | complete _ _ _ _ _ _ _ _ _ ihp ihd =>
      exact List.forall_mem_append.2 ⟨ihp, ihd⟩
  | substitution _ hp hd _ _ _ _ _ ihp ihd =>
      exact List.forall_mem_append.2 ⟨List.forall_mem_append.2 ⟨ihp, ihd⟩,
        List.forall_mem_singleton.2 ⟨htree hp, htree hd⟩⟩
  | right _ _ hh ha _ _ _ _ _ ihh iha =>
      exact List.forall_mem_append.2 ⟨List.forall_mem_append.2 ⟨ihh, iha⟩,
        List.forall_mem_singleton.2 ⟨htree hh, htree ha⟩⟩
  | left _ _ hh ha _ _ _ _ ihh iha =>
      exact List.forall_mem_append.2 ⟨List.forall_mem_append.2 ⟨ihh, iha⟩,
        List.forall_mem_singleton.2 ⟨htree hh, htree ha⟩⟩

/-- The edges of a finished tree put no tree in twice. -/
theorem Recounts.grows (hsel : sel.Sound) (hanchored : sel.Anchored) (hinv : c.Inv sel starts n)
    {A : Account} {x : Item W} {E : Analysis W} (h : c.Recounts A x E)
    (hpassive : x.isPassive = true) (hroot : x.isRootLayer = true) : E.Grows x.tree := by
  refine ⟨h.stemsAre.imp fun s hs => hs.first, List.pairwise_map.2 ?_⟩
  have hmem : ∀ t ∈ x.tree :: E.map Edge.second, t ∈ sel.trees := by
    intro t ht
    rcases List.mem_cons.1 ht with rfl | hput
    · exact (hinv.valid_of_holds h.holds).tree
    · obtain ⟨e, he, rfl⟩ := List.mem_map.1 hput
      exact (h.mem_trees hinv e he).2
  refine (h.pairwise_windows hsel hanchored hinv hpassive hroot).imp_of_mem ?_
  intro t u ht hu hapart hid
  cases hsel.eq_of_id_eq (hmem t ht) (hmem u hu) hid
  obtain ⟨pos, hpos⟩ := AnchoredTree.exists_mem_window (hanchored t (hmem t ht)).1
  exact hapart hpos hpos

end Chart

namespace Grammar

/-- Whether every rule with anchors has as many places for them. -/
def Anchored (g : Grammar W) : Prop :=
  ∀ r ∈ g.rules, r.anchors ≠ [] → r.anchorPlaces.length = r.anchors.length

instance (g : Grammar W) : Decidable g.Anchored :=
  inferInstanceAs (Decidable (∀ r ∈ g.rules, r.anchors ≠ [] →
    r.anchorPlaces.length = r.anchors.length))

theorem Anchored.select {g : Grammar W} (h : g.Anchored) (input : List String) :
    (g.select input).Anchored := by
  intro t ht
  obtain ⟨hrule, hanchors, -⟩ := mem_select ht
  exact ⟨hanchors, h t.rule hrule hanchors⟩

theorem isPassive_and_isRootLayer_of_mem_accepting [One W] [Mul W] {g : Grammar W}
    {input : List String} {x : Item W} (hx : x ∈ (g.parse input).accepting) :
    x.isPassive = true ∧ x.isRootLayer = true := by
  have htests := (List.mem_filter.1 hx).2
  simp only [Bool.and_eq_true] at htests
  exact ⟨htests.1.1.1.1.1, htests.1.1.2⟩

/-- Every reading is a tree, and the anchor windows of its nodes are pairwise disjoint. -/
theorem exists_isTree_of_mem_readings [One W] [Mul W] (g : Grammar W) (hanchored : g.Anchored)
    (input : List String) :
    ∀ f ∈ ((g.parse input).readings : List (Forest W H)), ∃ root, f.IsTree root := by
  intro f hf
  obtain ⟨told, -, htold, hreadings⟩ := exists_accounts_of_readings (H := H) g input
  rw [hreadings] at hf
  obtain ⟨⟨x, a⟩, hp, rfl⟩ := List.mem_map.1 hf
  obtain ⟨haccepting, hrecounts⟩ := htold _ hp
  obtain ⟨hpassive, hroot⟩ := isPassive_and_isRootLayer_of_mem_accepting haccepting
  have hinv := (g.reached_parse input).inv (g.sound_select input)
  have hgrows := hrecounts.grows (g.sound_select input) (hanchored.select input) hinv hpassive hroot
  exact ⟨x.tree, hgrows.isTree_readingOf H (hrecounts.pairwise_windows (g.sound_select input)
    (hanchored.select input) hinv hpassive hroot)⟩

theorem isTree_noun_with_adjective :
    adjectives.Anchored ∧
      ∃ f ∈ ((adjectives.parse ["big", "dog"]).readings : List (Forest Nat Unit)),
        f.edges.length = 1 ∧ ∃ root, f.IsTree root := by
  have hanchored : adjectives.Anchored := by decide
  have hlengths : ((adjectives.parse ["big", "dog"]).readings : List (Forest Nat Unit)).map
      (fun f => f.edges.length) = [1] := by decide +kernel
  obtain ⟨f, rest, hreadings, hlength, -⟩ := List.map_eq_cons_iff.1 hlengths
  have hf : f ∈ ((adjectives.parse ["big", "dog"]).readings : List (Forest Nat Unit)) :=
    hreadings ▸ List.mem_cons_self
  exact ⟨hanchored, f, hf, hlength,
    exists_isTree_of_mem_readings adjectives hanchored ["big", "dog"] f hf⟩

end Grammar

end TreeInsertion
