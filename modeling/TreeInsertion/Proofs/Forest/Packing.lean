import Mathlib.Logic.Relation
import TreeInsertion.Proofs.Forest.Recounting

/-!
# What a packed forest packs

The walk that packs a forest visits all that the accepted items go back to, in cycles or
not, and nothing else.  So the packed forest holds the edges of these items, and its nodes
are the accepted trees and the ends of these edges.
-/

namespace TreeInsertion

open Relation

variable {W H : Type}

/-! ## The contents of a forest -/

namespace Forest

/--
Whether the forest holds the given trees, the given edges and the ends of these, and no
more.  All of them are from the selection, so that numbers tell them apart.
-/
structure Comprises (sel : Selection W) (T : AnchoredTree W → Prop)
    (E : Edge (AnchoredTree W) → Prop) (f : Forest W H) : Prop where
  coherent : f.Coherent
  selected : ∀ t ∈ f.trees, t ∈ sel.trees
  edges : ∀ e, e ∈ f.edges ↔ E e
  trees : ∀ t, t ∈ f.trees ↔ T t ∨ ∃ e, E e ∧ (t = e.first ∨ t = e.second)

namespace Comprises

variable {sel : Selection W} {T : AnchoredTree W → Prop} {E : Edge (AnchoredTree W) → Prop}
  {f : Forest W H}

theorem of_edges_iff (h : f.Comprises sel T E) {E' : Edge (AnchoredTree W) → Prop}
    (hE : ∀ e, E e ↔ E' e) : f.Comprises sel T E' := by
  have heq : E = E' := funext fun e => propext (hE e)
  exact heq ▸ h

theorem of_trees_iff (h : f.Comprises sel T E) {T' : AnchoredTree W → Prop}
    (hT : ∀ t, T t ↔ T' t) : f.Comprises sel T' E := by
  have heq : T = T' := funext fun t => propext (hT t)
  exact heq ▸ h

theorem ends_selected (h : f.Comprises sel T E) {e : Edge (AnchoredTree W)} (he : E e) :
    e.first ∈ sel.trees ∧ e.second ∈ sel.trees :=
  ⟨h.selected _ ((h.trees _).2 (Or.inr ⟨e, he, Or.inl rfl⟩)),
    h.selected _ ((h.trees _).2 (Or.inr ⟨e, he, Or.inr rfl⟩))⟩

end Comprises

theorem comprises_empty (sel : Selection W) :
    (empty : Forest W H).Comprises sel (fun _ => False) fun _ => False := by
  refine ⟨coherent_empty, ?_, ?_, ?_⟩ <;> simp [empty, trees]

/-- A tree of the selection is a node after it is added, as all earlier ones are. -/
theorem mem_trees_addNode_iff {sel : Selection W} (hsel : sel.Sound) {f : Forest W H}
    (hf : f.Coherent) (hselected : ∀ u ∈ f.trees, u ∈ sel.trees) {t u : AnchoredTree W}
    (ht : t ∈ sel.trees) : u ∈ (f.addNode t).2.trees ↔ u ∈ f.trees ∨ u = t := by
  constructor
  · exact mem_trees_addNode
  · rintro (hu | rfl)
    · exact (prefix_addNode f t).subset hu
    · obtain ⟨v, hv, hid⟩ := hf.hasNode_addNode u
      rcases mem_trees_addNode hv with hold | rfl
      · cases hsel.eq_of_id_eq (hselected v hold) ht hid
        exact hv
      · exact hv

section Growth

variable {sel : Selection W} {T : AnchoredTree W → Prop} {E : Edge (AnchoredTree W) → Prop}
  {f : Forest W H}

theorem Comprises.addNode (hsel : sel.Sound) (h : f.Comprises sel T E) {t : AnchoredTree W}
    (ht : t ∈ sel.trees) : (f.addNode t).2.Comprises sel (fun u => T u ∨ u = t) E where
  coherent := h.coherent.addNode t
  selected u hu := (mem_trees_addNode hu).elim (h.selected u) fun heq => heq ▸ ht
  edges e := by rw [edges_addNode, h.edges]
  trees u := by
    rw [mem_trees_addNode_iff hsel h.coherent h.selected ht, h.trees]
    exact or_right_comm

theorem Comprises.addEdge (hsel : sel.Sound) (h : f.Comprises sel T E)
    {e : Edge (AnchoredTree W)} (he : e.first ∈ sel.trees ∧ e.second ∈ sel.trees) :
    (f.addEdge e).2.Comprises sel T fun d => E d ∨ d = e := by
  cases hnew : f.hasEdge e with
  | true =>
      -- numbers tell edges apart, so it is the edge itself that is there
      obtain ⟨d, hd, hkey⟩ := List.mem_map.1 (hasEdge_iff.1 hnew)
      have hE := (h.edges d).1 hd
      cases Edge.eq_of_key_eq hsel (h.ends_selected hE) he hkey
      rw [addEdge_of_hasEdge hnew]
      exact h.of_edges_iff fun d' => ⟨Or.inl, fun hd' => hd'.elim id fun heq => heq ▸ hE⟩
  | false =>
      have hfirst := h.addNode hsel he.1
      have hboth := hfirst.addNode hsel he.2
      have hcoherent := h.coherent.addEdge e
      rw [addEdge_of_new hnew] at hcoherent ⊢
      refine ⟨hcoherent, hboth.selected, fun d => ?_, fun u => ?_⟩
      · simp [h.edges]
      · refine (hboth.trees u).trans ?_
        constructor
        · rintro (((hu | rfl) | rfl) | ⟨d, hd, hend⟩)
          · exact Or.inl hu
          · exact Or.inr ⟨e, Or.inr rfl, Or.inl rfl⟩
          · exact Or.inr ⟨e, Or.inr rfl, Or.inr rfl⟩
          · exact Or.inr ⟨d, Or.inl hd, hend⟩
        · rintro (hu | ⟨d, hd | rfl, hend⟩)
          · exact Or.inl (Or.inl (Or.inl hu))
          · exact Or.inr ⟨d, hd, hend⟩
          · exact Or.inl (hend.imp_left Or.inr)

theorem Comprises.addAll (hsel : sel.Sound) (h : f.Comprises sel T E) {F : Analysis W}
    (hF : ∀ e ∈ F, e.first ∈ sel.trees ∧ e.second ∈ sel.trees) :
    (f.addAll F).Comprises sel T fun e => E e ∨ e ∈ F := by
  induction F generalizing f E with
  | nil => exact h.of_edges_iff fun e => by simp
  | cons d rest ih =>
      have hadded := h.addEdge hsel (hF d List.mem_cons_self)
      have hrest := ih hadded fun e he => hF e (List.mem_cons_of_mem d he)
      exact hrest.of_edges_iff fun e => by rw [List.mem_cons, or_assoc]

end Growth

end Forest

namespace Chart

/-! ## The walk -/

def edgesOf (c : Chart W) (id : Nat) : Analysis W :=
  (c.derivationsOf id).filterMap c.edgeOf?

/-- Whether the item is one that an accepted item goes back to. -/
def IsUsed (c : Chart W) (id : Nat) : Prop :=
  ∃ x ∈ c.accepting, ReflTransGen c.IsAntecedent x.id id

theorem IsUsed.antecedent {c : Chart W} {id a : Nat} (h : c.IsUsed id)
    (ha : c.IsAntecedent id a) : c.IsUsed a := by
  obtain ⟨x, hx, hpath⟩ := h
  exact ⟨x, hx, hpath.tail ha⟩

def UsesEdge (c : Chart W) (e : Edge (AnchoredTree W)) : Prop :=
  ∃ id, c.IsUsed id ∧ e ∈ c.edgesOf id

section Walk

variable {sel : Selection W} {c : Chart W} {T : AnchoredTree W → Prop} {fresh stack : List Nat}
  {f : Forest W H}

/--
What holds at each step of the walk: the visited items are those that are not fresh, their
antecedents are visited or wait on the stack, and the forest holds their edges.
-/
structure Walked (sel : Selection W) (c : Chart W) (T : AnchoredTree W → Prop)
    (fresh stack : List Nat) (f : Forest W H) : Prop where
  nodup : fresh.Nodup
  used : ∀ id ∈ stack, c.IsUsed id
  visited : ∀ id ∉ fresh, id < c.items.size → c.IsUsed id
  roots : ∀ x ∈ c.accepting, x.id ∉ fresh ∨ x.id ∈ stack
  closed : ∀ id ∉ fresh, ∀ a, c.IsAntecedent id a → a ∉ fresh ∨ a ∈ stack
  comprises : f.Comprises sel T fun e => ∃ id ∉ fresh, e ∈ c.edgesOf id

theorem Walked.skip {id : Nat} (h : Walked sel c T fresh (id :: stack) f) (hid : id ∉ fresh) :
    Walked sel c T fresh stack f where
  nodup := h.nodup
  used a ha := h.used a (List.mem_cons_of_mem id ha)
  visited := h.visited
  roots x hx := by
    rcases h.roots x hx with hvisited | hwaits
    · exact Or.inl hvisited
    · rcases List.mem_cons.1 hwaits with heq | hrest
      · exact Or.inl (heq ▸ hid)
      · exact Or.inr hrest
  closed b hb a ha := by
    rcases h.closed b hb a ha with hvisited | hwaits
    · exact Or.inl hvisited
    · rcases List.mem_cons.1 hwaits with rfl | hrest
      · exact Or.inl hid
      · exact Or.inr hrest
  comprises := h.comprises

theorem Walked.visit (hsel : sel.Sound)
    (hselected : ∀ id, ∀ e ∈ c.edgesOf id, e.first ∈ sel.trees ∧ e.second ∈ sel.trees) {id : Nat}
    (h : Walked sel c T fresh (id :: stack) f) (hid : id ∈ fresh) :
    Walked sel c T (fresh.erase id) ((c.antecedentsOf id).reverse ++ stack)
      (c.addEdgesOf f id) where
  nodup := h.nodup.erase id
  used a ha := by
    rcases List.mem_append.1 ha with hnew | hrest
    · exact (h.used id List.mem_cons_self).antecedent (List.mem_reverse.1 hnew)
    · exact h.used a (List.mem_cons_of_mem id hrest)
  visited a ha hlt := by
    rw [h.nodup.mem_erase_iff, not_and_or, not_not] at ha
    rcases ha with rfl | ha
    · exact h.used a List.mem_cons_self
    · exact h.visited a ha hlt
  roots x hx := by
    rw [h.nodup.mem_erase_iff, not_and_or, not_not]
    rcases h.roots x hx with hvisited | hwaits
    · exact Or.inl (Or.inr hvisited)
    · rcases List.mem_cons.1 hwaits with heq | hrest
      · exact Or.inl (Or.inl heq)
      · exact Or.inr (List.mem_append_right _ hrest)
  closed b hb a ha := by
    rw [h.nodup.mem_erase_iff, not_and_or, not_not] at hb ⊢
    rcases hb with rfl | hb
    · exact Or.inr (List.mem_append_left _ (List.mem_reverse.2 ha))
    · rcases h.closed b hb a ha with hvisited | hwaits
      · exact Or.inl (Or.inr hvisited)
      · rcases List.mem_cons.1 hwaits with heq | hrest
        · exact Or.inl (Or.inl heq)
        · exact Or.inr (List.mem_append_right _ hrest)
  comprises := by
    refine (h.comprises.addAll hsel (hselected id)).of_edges_iff fun e => ?_
    simp only [h.nodup.mem_erase_iff, not_and_or, not_not, or_and_right, exists_or,
      exists_eq_left]
    exact or_comm

/-- In the end the forest holds the edges of all items that accepted ones go back to. -/
theorem Walked.comprises_collect (hsel : sel.Sound)
    (hselected : ∀ id, ∀ e ∈ c.edgesOf id, e.first ∈ sel.trees ∧ e.second ∈ sel.trees)
    (h : Walked sel c T fresh stack f) :
    (c.collect fresh stack f).Comprises sel T c.UsesEdge := by
  fun_induction collect c fresh stack f with
  | case1 fresh f =>
      refine h.comprises.of_edges_iff fun e => ⟨?_, ?_⟩
      · rintro ⟨id, hid, he⟩
        obtain ⟨why, hwhy, -⟩ := List.mem_filterMap.1 he
        obtain ⟨x, hx, -⟩ := mem_derivationsOf hwhy
        exact ⟨id, h.visited id hid (Array.getElem?_eq_some_iff.1 hx).1, he⟩
      · rintro ⟨id, ⟨x, hx, hpath⟩, he⟩
        refine ⟨id, ?_, he⟩
        clear he
        induction hpath with
        | refl => exact (h.roots x hx).resolve_right List.not_mem_nil
        | tail _ ha ih => exact (h.closed _ ih _ ha).resolve_right List.not_mem_nil
  | case2 fresh f id rest hfresh ih => exact ih (h.visit hsel hselected hfresh)
  | case3 fresh f id rest hfresh ih => exact ih (h.skip hfresh)

end Walk

section Packed

variable {sel : Selection W} {starts : SymbolSet} {n : Nat} {c : Chart W}

/-- The edges of a chart are between trees of the selection. -/
theorem Inv.ends_selected (hinv : c.Inv sel starts n) {id : Nat} :
    ∀ e ∈ c.edgesOf id, e.first ∈ sel.trees ∧ e.second ∈ sel.trees := by
  intro e he
  obtain ⟨why, -, hedge⟩ := List.mem_filterMap.1 he
  cases (edgeOf?_eq_some_iff hinv.filed).1 hedge with
  | substitution hp hd => exact ⟨(hinv.valid_of_holds hp).tree, (hinv.valid_of_holds hd).tree⟩
  | adjunction hh ha _ => exact ⟨(hinv.valid_of_holds hh).tree, (hinv.valid_of_holds ha).tree⟩

/-- Adding the trees of several items. -/
theorem comprises_foldl_addNode (hsel : sel.Sound) {items : List (Item W)}
    (hitems : ∀ x ∈ items, x.tree ∈ sel.trees) {T : AnchoredTree W → Prop}
    {E : Edge (AnchoredTree W) → Prop} {f : Forest W H} (h : f.Comprises sel T E) :
    (items.foldl (fun f x => (f.addNode x.tree).2) f).Comprises sel
      (fun t => T t ∨ ∃ x ∈ items, t = x.tree) E := by
  induction items generalizing f T with
  | nil => exact h.of_trees_iff fun t => by simp
  | cons x rest ih =>
      have hrest := ih (fun y hy => hitems y (List.mem_cons_of_mem x hy))
        (h.addNode hsel (hitems x List.mem_cons_self))
      exact hrest.of_trees_iff fun t => by simp [or_assoc]

/--
The packed forest has the accepted trees as nodes, and the edges of all items that the
accepted ones go back to, with their ends.
-/
theorem comprises_packedForest (hsel : sel.Sound) (hinv : c.Inv sel starts n) :
    (c.packedForest : Forest W H).Comprises sel (fun t => ∃ x ∈ c.accepting, t = x.tree)
      c.UsesEdge := by
  have hnone {id : Nat} (hid : id ∉ List.range c.items.size) : c.derivationsOf id = [] := by
    rw [derivationsOf, Array.getElem?_eq_none (Nat.not_lt.1 fun hlt => hid (List.mem_range.2 hlt))]
  have hroots := comprises_foldl_addNode (H := H) hsel
    (fun x hx => (hinv.valid x (mem_items_of_mem_accepting hx)).tree) (Forest.comprises_empty sel)
  refine Walked.comprises_collect hsel (fun _ => hinv.ends_selected) ?_
  refine ⟨List.nodup_range, ?_, ?_, ?_, ?_, ?_⟩
  · intro id hid
    obtain ⟨x, hx, rfl⟩ := List.mem_map.1 (List.mem_reverse.1 hid)
    exact ⟨x, hx, .refl⟩
  · exact fun id hid hlt => absurd (List.mem_range.2 hlt) hid
  · exact fun x hx => Or.inr (List.mem_reverse.2 (List.mem_map_of_mem hx))
  · intro id hid a ha
    rw [IsAntecedent, antecedentsOf, hnone hid] at ha
    cases ha
  · refine (hroots.of_trees_iff fun t => by simp).of_edges_iff fun e => ?_
    refine ⟨False.elim, ?_⟩
    rintro ⟨id, hid, he⟩
    rw [edgesOf, hnone hid] at he
    cases he

end Packed

end Chart

end TreeInsertion
