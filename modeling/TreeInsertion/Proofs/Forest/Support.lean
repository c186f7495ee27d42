import TreeInsertion.Proofs.Forest.Packing
import TreeInsertion.Proofs.Forest.Trees

/-!
# What supports acceptance

The walk that packs a forest comes to its end on every chart, cyclic ones included.  What
it has then is what supports the accepted items: the edges and the trees of all items that
these go back to, each once, and every tree is led to from an accepted one.
-/

namespace TreeInsertion

open Relation

variable {W H : Type}

/-! ## The course of the walk -/

structure Walk (W H : Type) where
  /-- The numbers of the items that were visited. -/
  visited : List Nat
  /-- The numbers of the items to go on with, the next one first. -/
  stack : List Nat
  forest : Forest W H

namespace Walk

def first (c : Chart W) : Walk W H :=
  ⟨[], (c.accepting.map Item.id).reverse,
    c.accepting.foldl (fun f x => (f.addNode x.tree).2) Forest.empty⟩

/--
The walk takes an item off the stack.  A new one leaves its edges in the forest and its
antecedents on the stack.
-/
inductive Next (c : Chart W) : Walk W H → Walk W H → Prop where
  | skip {s : Walk W H} {id : Nat} {rest : List Nat} (hstack : s.stack = id :: rest)
      (hid : id ∈ s.visited) : Next c s ⟨s.visited, rest, s.forest⟩
  | visit {s : Walk W H} {x : Item W} {rest : List Nat} (hstack : s.stack = x.id :: rest)
      (hx : c.Holds x) (hid : x.id ∉ s.visited) :
      Next c s ⟨x.id :: s.visited,
        (x.derivations.flatMap Derivation.antecedents).reverse ++ rest,
        s.forest.addAll (x.derivations.filterMap c.edgeOf?)⟩

variable {c : Chart W} {s s' : Walk W H}

/-- With nothing on the stack the walk is over. -/
theorem not_next (h : s.stack = []) : ¬ Next c s s' := by
  intro hnext
  cases hnext with
  | skip hstack => cases h.symm.trans hstack
  | visit hstack => cases h.symm.trans hstack

/-- A walk goes on in one way at most. -/
theorem Next.unique : Relator.RightUnique (Next (H := H) c) := by
  intro s t t' ht ht'
  cases ht with
  | skip hstack hid =>
      cases ht' with
      | skip hstack' => cases hstack.symm.trans hstack'; rfl
      | visit hstack' _ hnew => cases hstack.symm.trans hstack'; exact absurd hid hnew
  | visit hstack hx hnew =>
      cases ht' with
      | skip hstack' hid => cases hstack.symm.trans hstack'; exact absurd hid hnew
      | visit hstack' hx' =>
          obtain ⟨hid, rfl⟩ := List.cons.inj (hstack.symm.trans hstack')
          cases Chart.eq_of_holds hx hx' hid
          rfl

/-- A walk that can come to its end comes to it from wherever it got to. -/
theorem leads_to_end {t : Walk W H} (h : ReflTransGen (Next c) s s') (hend : s'.stack = [])
    (ht : ReflTransGen (Next c) s t) : ReflTransGen (Next c) t s' := by
  rcases ReflTransGen.total_of_right_unique Next.unique ht h with hlater | hbeyond
  · exact hlater
  · rcases ReflTransGen.cases_head hbeyond with rfl | ⟨u, hnext, -⟩
    · exact .refl
    · exact absurd hnext (not_next hend)

/-- A walk that can come to its end cannot go on for ever. -/
theorem not_endless (h : ReflTransGen (Next c) s s') (hend : s'.stack = []) :
    ¬ ∃ run : Nat → Walk W H, run 0 = s ∧ ∀ m, Next c (run m) (run (m + 1)) := by
  induction h using ReflTransGen.head_induction_on with
  | refl =>
      rintro ⟨run, rfl, hrun⟩
      exact not_next hend (hrun 0)
  | head hnext _ ih =>
      rintro ⟨run, rfl, hrun⟩
      exact ih ⟨fun m => run (m + 1), Next.unique (hrun 0) hnext, fun m => hrun (m + 1)⟩

end Walk

namespace Chart

section Course

variable {c : Chart W}

theorem derivationsOf_of_holds {x : Item W} (hx : c.Holds x) :
    c.derivationsOf x.id = x.derivations := by
  rw [derivationsOf, hx]

/--
Marking what is visited comes to what erasing it from the fresh items comes to, as long as
nothing but items of the chart is on the stack.
-/
theorem exists_reflTransGen_collect (hfiled : c.Filed)
    (hlt : ∀ {id a : Nat}, c.IsAntecedent id a → a < c.items.size) {fresh stack : List Nat}
    {f : Forest W H} {visited : List Nat} (hnodup : fresh.Nodup)
    (hfresh : ∀ id < c.items.size, id ∈ fresh ↔ id ∉ visited)
    (hstack : ∀ id ∈ stack, id < c.items.size) :
    ∃ visited', ReflTransGen (Walk.Next c) ⟨visited, stack, f⟩
      ⟨visited', [], c.collect fresh stack f⟩ := by
  fun_induction collect c fresh stack f generalizing visited with
  | case1 fresh f => exact ⟨visited, .refl⟩
  | case2 fresh f id rest hid ih =>
      obtain ⟨hsize, hrest⟩ := List.forall_mem_cons.1 hstack
      obtain ⟨x, hx, rfl⟩ : ∃ x, c.Holds x ∧ x.id = id :=
        ⟨_, hfiled.holds_of_getElem? (Array.getElem?_eq_getElem hsize)⟩
      have hnew : x.id ∉ visited := (hfresh x.id hsize).1 hid
      have hvisit : Walk.Next c ⟨visited, x.id :: rest, f⟩
          ⟨x.id :: visited, (c.antecedentsOf x.id).reverse ++ rest, c.addEdgesOf f x.id⟩ := by
        rw [antecedentsOf, addEdgesOf, derivationsOf_of_holds hx]
        exact .visit rfl hx hnew
      have hfresh' : ∀ a < c.items.size, a ∈ fresh.erase x.id ↔ a ∉ x.id :: visited := by
        intro a ha
        rw [hnodup.mem_erase_iff, hfresh a ha, List.mem_cons, not_or]
      have hstack' : ∀ a ∈ (c.antecedentsOf x.id).reverse ++ rest, a < c.items.size := by
        intro a ha
        rcases List.mem_append.1 ha with hnext | ha
        · exact hlt (List.mem_reverse.1 hnext)
        · exact hrest a ha
      obtain ⟨visited', hpath⟩ := ih (hnodup.erase x.id) hfresh' hstack'
      exact ⟨visited', .head hvisit hpath⟩
  | case3 fresh f id rest hid ih =>
      obtain ⟨hsize, hrest⟩ := List.forall_mem_cons.1 hstack
      have hvisited : id ∈ visited := by
        by_contra hnew
        exact hid ((hfresh id hsize).2 hnew)
      obtain ⟨visited', hpath⟩ := ih hnodup hfresh hrest
      exact ⟨visited', .head (.skip rfl hvisited) hpath⟩

/-- The walk over a chart comes to its end with the packed forest. -/
theorem exists_reflTransGen_packedForest (hfiled : c.Filed)
    (hlt : ∀ {id a : Nat}, c.IsAntecedent id a → a < c.items.size) :
    ∃ visited, ReflTransGen (Walk.Next c) (Walk.first c : Walk W H)
      ⟨visited, [], c.packedForest⟩ := by
  refine exists_reflTransGen_collect hfiled hlt List.nodup_range ?_ ?_
  · intro id hid
    simp [hid]
  · intro id hid
    obtain ⟨x, hx, rfl⟩ := List.mem_map.1 (List.mem_reverse.1 hid)
    exact hfiled.id_lt_size (mem_items_of_mem_accepting hx)

end Course

end Chart

/-! ## Steps and their edges -/

def Derivation.putsIn : Derivation → Bool
  | substitution _ _ | adjunction _ _ => true
  | predicted | scan _ | foot _ | complete _ _ => false

theorem Item.tree_advanceTo (x : Item W) (right : Nat) (weight : W) :
    (x.advanceTo right weight).tree = x.tree := by
  unfold advanceTo advance
  split <;> rfl

namespace Chart

theorem tree_joined [Mul W] (h a : Item W) (side : Side) : (joined h a side).tree = h.tree := by
  cases side <;> rfl

section Derived

variable [Mul W] {sel : Selection W} {starts : SymbolSet} {input : List String} {c : Chart W}

/-- Every step that puts a tree into another has its edge. -/
theorem Step.exists_isEdgeOf {x : Item W} {why : Derivation} (h : Step input c.Holds x why)
    (hputs : why.putsIn = true) : ∃ e, c.IsEdgeOf why e := by
  cases h with
  | scan => cases hputs
  | foot => cases hputs
  | complete => cases hputs
  | substitution hp hd => exact ⟨_, .substitution hp hd⟩
  | right hh ha _ _ haux =>
      obtain ⟨spine, hspine⟩ := exists_spine_of_isFinishedAuxiliary haux
      exact ⟨_, .adjunction hh ha hspine⟩
  | left hh ha _ haux =>
      obtain ⟨spine, hspine⟩ := exists_spine_of_isFinishedAuxiliary haux
      exact ⟨_, .adjunction hh ha hspine⟩

/-- A step is from items of the same tree, or from one of a tree that it puts in. -/
theorem Step.exists_source (hsel : sel.Sound) (hinv : c.Inv sel starts input.length) {x : Item W}
    {why : Derivation} (h : Step input c.Holds x why) {id : Nat} (hid : id ∈ why.antecedents) :
    ∃ y, c.Holds y ∧ y.id = id ∧
      (y.tree = x.tree ∨ ∃ e, c.IsEdgeOf why e ∧ e.first = x.tree ∧ e.second = y.tree) := by
  have hjoined {h a : Item W} {label : String} {side : Side} (hh : c.Holds h) (ha : c.Holds a)
      (haux : isFinishedAuxiliary label side a = true) (hid : id ∈ [h.id, a.id]) :
      ∃ y, c.Holds y ∧ y.id = id ∧ (y.tree = h.tree ∨
        ∃ e, c.IsEdgeOf (.adjunction h.id a.id) e ∧ e.first = h.tree ∧ e.second = y.tree) := by
    rcases List.mem_pair.1 hid with rfl | rfl
    · exact ⟨h, hh, rfl, Or.inl rfl⟩
    · obtain ⟨spine, hspine⟩ := exists_spine_of_isFinishedAuxiliary haux
      exact ⟨a, ha, rfl, Or.inr ⟨_, .adjunction hh ha hspine, rfl, rfl⟩⟩
  cases h with
  | @scan p _ hp =>
      cases List.mem_singleton.1 hid
      exact ⟨p, hp, rfl, Or.inl (Item.tree_advanceTo ..).symm⟩
  | @foot p _ hp =>
      cases List.mem_singleton.1 hid
      exact ⟨p, hp, rfl, Or.inl (Item.tree_advanceTo ..).symm⟩
  | @complete p d hp hd _ _ htree =>
      rw [Item.tree_advanceTo]
      rcases List.mem_pair.1 hid with rfl | rfl
      · exact ⟨p, hp, rfl, Or.inl rfl⟩
      · exact ⟨d, hd, rfl, Or.inl (hsel.eq_of_id_eq (hinv.valid_of_holds hd).tree
          (hinv.valid_of_holds hp).tree htree)⟩
  | @substitution p d hp hd =>
      rw [Item.tree_advanceTo]
      rcases List.mem_pair.1 hid with rfl | rfl
      · exact ⟨p, hp, rfl, Or.inl rfl⟩
      · exact ⟨d, hd, rfl, Or.inr ⟨_, .substitution hp hd, rfl, rfl⟩⟩
  | right hh ha _ _ haux =>
      rw [tree_joined]
      exact hjoined hh ha haux hid
  | left hh ha _ haux =>
      rw [tree_joined]
      exact hjoined hh ha haux hid

/-- An item goes back to items of its own tree, or to those of trees that an edge puts into it. -/
theorem exists_of_isAntecedent (hsel : sel.Sound) (hinv : c.Inv sel starts input.length)
    (hderived : ∀ x ∈ c.items, Derived input c x) {x : Item W} (hx : c.Holds x) {id : Nat}
    (h : c.IsAntecedent x.id id) :
    ∃ y, c.Holds y ∧ y.id = id ∧ (y.tree = x.tree ∨
      ∃ why ∈ x.derivations, ∃ e, c.IsEdgeOf why e ∧ e.first = x.tree ∧ e.second = y.tree) := by
  obtain ⟨why, hwhy, hid⟩ := List.mem_flatMap.1 h
  rw [derivationsOf_of_holds hx] at hwhy
  rcases (hderived x (Array.mem_of_getElem? hx)).explained why hwhy with ⟨rfl, -⟩ | ⟨z, hstep, hkey⟩
  · cases hid
  · rw [(agrees_of_step hsel hinv hx hstep hkey).tree]
    obtain ⟨y, hy, hid, htree⟩ := hstep.exists_source hsel hinv hid
    exact ⟨y, hy, hid, htree.imp_right fun hedge => ⟨why, hwhy, hedge⟩⟩

end Derived

/-! ## The support -/

/-- Whether the chart holds the item, and an accepted one is it or goes back to it. -/
def Supports (c : Chart W) (x : Item W) : Prop :=
  c.Holds x ∧ c.IsUsed x.id

/--
Whether the forest is what supports the accepted items: the edges and the trees of all items
that do, each once, and every tree led to from an accepted one.
-/
structure IsSupportedBy (c : Chart W) (f : Forest W H) : Prop where
  edges : ∀ e, e ∈ f.edges ↔ ∃ x, c.Supports x ∧ ∃ why ∈ x.derivations, c.IsEdgeOf why e
  /-- No substitution and no adjunction is without an edge. -/
  complete : ∀ x, c.Supports x → ∀ why ∈ x.derivations, why.putsIn = true →
    ∃ e ∈ f.edges, c.IsEdgeOf why e
  nodup_edges : (f.edges.map Edge.key).Nodup
  trees : ∀ t, t ∈ f.trees ↔ ∃ x, c.Supports x ∧ x.tree = t
  nodup_trees : (f.trees.map AnchoredTree.id).Nodup
  connected : ∀ t ∈ f.trees, ∃ z ∈ c.accepting, ReflTransGen f.Links z.tree.id t.id

section Support

variable {sel : Selection W} {starts : SymbolSet} {input : List String} {c : Chart W}
  {f : Forest W H}

theorem usesEdge_iff_exists_supports (hfiled : c.Filed) {e : Edge (AnchoredTree W)} :
    c.UsesEdge e ↔ ∃ x, c.Supports x ∧ ∃ why ∈ x.derivations, c.IsEdgeOf why e := by
  constructor
  · rintro ⟨id, hused, he⟩
    obtain ⟨why, hwhy, hedge⟩ := List.mem_filterMap.1 he
    obtain ⟨x, hx, hmem⟩ := mem_derivationsOf hwhy
    obtain ⟨hx, rfl⟩ := hfiled.holds_of_getElem? hx
    exact ⟨x, ⟨hx, hused⟩, why, hmem, (edgeOf?_eq_some_iff hfiled).1 hedge⟩
  · rintro ⟨x, ⟨hx, hused⟩, why, hwhy, hedge⟩
    refine ⟨x.id, hused, List.mem_filterMap.2 ⟨why, ?_, (edgeOf?_eq_some_iff hfiled).2 hedge⟩⟩
    rwa [derivationsOf_of_holds hx]

/-- The ends of an edge are trees of items that support the accepted ones. -/
theorem Supports.of_isEdgeOf {x : Item W} (h : c.Supports x) {why : Derivation}
    (hwhy : why ∈ x.derivations) {e : Edge (AnchoredTree W)} (hedge : c.IsEdgeOf why e) :
    (∃ y, c.Supports y ∧ y.tree = e.first) ∧ ∃ y, c.Supports y ∧ y.tree = e.second := by
  have hused {a : Nat} (ha : a ∈ why.antecedents) : c.IsUsed a := by
    refine h.2.antecedent (List.mem_flatMap.2 ⟨why, ?_, ha⟩)
    rwa [derivationsOf_of_holds h.1]
  cases hedge with
  | @substitution p d hp hd =>
      exact ⟨⟨p, ⟨hp, hused (List.mem_pair.2 (Or.inl rfl))⟩, rfl⟩,
        ⟨d, ⟨hd, hused (List.mem_pair.2 (Or.inr rfl))⟩, rfl⟩⟩
  | @adjunction h a spine hh ha hspine =>
      exact ⟨⟨h, ⟨hh, hused (List.mem_pair.2 (Or.inl rfl))⟩, rfl⟩,
        ⟨a, ⟨ha, hused (List.mem_pair.2 (Or.inr rfl))⟩, rfl⟩⟩

variable [Mul W]

/--
On the way from an accepted item to one that it goes back to, the tree stays the same or an
edge leads on to the next one.
-/
theorem exists_links_of_supports (hsel : sel.Sound) (hinv : c.Inv sel starts input.length)
    (hderived : ∀ x ∈ c.items, Derived input c x)
    (hf : f.Comprises sel (fun t => ∃ x ∈ c.accepting, t = x.tree) c.UsesEdge) {x : Item W}
    (h : c.Supports x) :
    x.tree ∈ f.trees ∧ ∃ z ∈ c.accepting, ReflTransGen f.Links z.tree.id x.tree.id := by
  obtain ⟨hx, z, hz, hpath⟩ := h
  -- the path is one of numbers, so the item at its end is left open in the induction
  generalize hid : x.id = id at hpath
  induction hpath generalizing x with
  | refl =>
      have hroot := hinv.filed.getElem?_id (mem_items_of_mem_accepting hz)
      rw [eq_of_holds hx hroot hid]
      exact ⟨(hf.trees z.tree).2 (Or.inl ⟨z, hz, rfl⟩), z, hz, .refl⟩
  | @tail b _ hpath hlast ih =>
      obtain ⟨why, hwhy, -⟩ := List.mem_flatMap.1 hlast
      obtain ⟨y, hy, -⟩ := mem_derivationsOf hwhy
      obtain ⟨hy, rfl⟩ := hinv.filed.holds_of_getElem? hy
      obtain ⟨hmem, z', hz', hlinks⟩ := ih hy rfl
      obtain ⟨x', hx', hsame, htree⟩ := exists_of_isAntecedent hsel hinv hderived hy hlast
      rw [eq_of_holds hx hx' (hid.trans hsame.symm)]
      -- the last step stays within a tree, or the forest has its edge
      rcases htree with htree | ⟨why, hwhy, e, hedge, hfirst, hsecond⟩
      · rw [htree]
        exact ⟨hmem, z', hz', hlinks⟩
      · have huses : c.UsesEdge e :=
          (usesEdge_iff_exists_supports hinv.filed).2 ⟨y, ⟨hy, z, hz, hpath⟩, why, hwhy, hedge⟩
        refine ⟨(hf.trees x'.tree).2 (Or.inr ⟨e, huses, Or.inr hsecond.symm⟩), z', hz', ?_⟩
        exact hlinks.tail ⟨e, (hf.edges e).2 huses, by rw [hfirst], by rw [hsecond]⟩

theorem isSupportedBy_of_comprises (hsel : sel.Sound) (hinv : c.Inv sel starts input.length)
    (hderived : ∀ x ∈ c.items, Derived input c x)
    (hf : f.Comprises sel (fun t => ∃ x ∈ c.accepting, t = x.tree) c.UsesEdge) :
    c.IsSupportedBy f := by
  have huses {e : Edge (AnchoredTree W)} := usesEdge_iff_exists_supports hinv.filed (e := e)
  have htrees (t : AnchoredTree W) : t ∈ f.trees ↔ ∃ x, c.Supports x ∧ x.tree = t := by
    constructor
    · intro ht
      rcases (hf.trees t).1 ht with ⟨z, hz, rfl⟩ | ⟨e, he, hend⟩
      · have hroot := hinv.filed.getElem?_id (mem_items_of_mem_accepting hz)
        exact ⟨z, ⟨hroot, z, hz, .refl⟩, rfl⟩
      · obtain ⟨x, hx, why, hwhy, hedge⟩ := huses.1 he
        rcases hend with rfl | rfl
        · exact (hx.of_isEdgeOf hwhy hedge).1
        · exact (hx.of_isEdgeOf hwhy hedge).2
    · rintro ⟨x, hx, rfl⟩
      exact (exists_links_of_supports hsel hinv hderived hf hx).1
  refine ⟨fun e => (hf.edges e).trans huses, ?_, hf.coherent.nodup, htrees,
    hf.coherent.nodup_ids, ?_⟩
  · intro x hx why hwhy hputs
    rcases (hderived x (Array.mem_of_getElem? hx.1)).explained why hwhy with
      ⟨rfl, -⟩ | ⟨y, hstep, -⟩
    · cases hputs
    · obtain ⟨e, hedge⟩ := hstep.exists_isEdgeOf hputs
      exact ⟨e, (hf.edges e).2 (huses.2 ⟨x, hx, why, hwhy, hedge⟩), hedge⟩
  · intro t ht
    obtain ⟨x, hx, rfl⟩ := (htrees t).1 ht
    exact (exists_links_of_supports hsel hinv hderived hf hx).2

end Support

end Chart

namespace Grammar

variable (H) in
/--
For every grammar and input, no walk over the chart goes on for ever, and wherever one got
to, it comes to its end with the packed forest.  That forest is what supports the accepted
items, no more and no less.
-/
theorem packing_ends_with_support [One W] [Mul W] (g : Grammar W) (input : List String) :
    (¬ ∃ run : Nat → Walk W H, run 0 = .first (g.parse input) ∧
      ∀ m, Walk.Next (g.parse input) (run m) (run (m + 1))) ∧
    (∃ visited, ∀ s : Walk W H,
      ReflTransGen (Walk.Next (g.parse input)) (.first (g.parse input)) s →
        ReflTransGen (Walk.Next (g.parse input)) s ⟨visited, [], (g.parse input).packedForest⟩) ∧
    (g.parse input).IsSupportedBy ((g.parse input).packedForest : Forest W H) := by
  have hsel := g.sound_select input
  have hinv := (g.reached_parse input).inv hsel
  have hderived := (g.reached_parse input).derived hsel
  obtain ⟨visited, hpath⟩ := Chart.exists_reflTransGen_packedForest (H := H) hinv.filed
    (Chart.lt_size_of_isAntecedent hderived)
  exact ⟨Walk.not_endless hpath rfl, ⟨visited, fun s => Walk.leads_to_end hpath rfl⟩,
    Chart.isSupportedBy_of_comprises hsel hinv hderived
      (Chart.comprises_packedForest hsel hinv)⟩

end Grammar

end TreeInsertion
