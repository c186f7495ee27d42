import TreeInsertion.Proofs.Forest.Grove

/-!
# What a renderer is asked

A drawing asks the renderer for each node in turn, and then for each edge with the handles
that it got for the ends.  No edge is passed over, since its ends are nodes.
-/

namespace TreeInsertion

variable {W H S : Type}

/-! ## The order of the edges -/

section Sorting

variable {α : Type} (key : α → Nat)

theorem decide_key_trans (a b c : α) (hab : decide (key a ≤ key b) = true)
    (hbc : decide (key b ≤ key c) = true) : decide (key a ≤ key c) = true :=
  decide_eq_true (Nat.le_trans (of_decide_eq_true hab) (of_decide_eq_true hbc))

theorem decide_key_total (a b : α) :
    (decide (key a ≤ key b) || decide (key b ≤ key a)) = true := by
  simpa using Nat.le_total (key a) (key b)

theorem pairwise_mergeSort_key (as : List α) :
    (as.mergeSort fun a b => key a ≤ key b).Pairwise fun a b => key a ≤ key b :=
  (List.pairwise_mergeSort (decide_key_trans key) (decide_key_total key) as).imp of_decide_eq_true

/-- Sorting by a key is stable: what agrees in the key keeps its order. -/
theorem filter_mergeSort_key (as : List α) (k : Nat) :
    (as.mergeSort fun a b => key a ≤ key b).filter (fun a => key a = k) =
      as.filter fun a => key a = k := by
  have hclass : (as.filter fun a => key a = k).Pairwise fun a b =>
      decide (key a ≤ key b) = true := by
    refine List.pairwise_of_forall_mem_list fun a ha b hb => ?_
    have ha := of_decide_eq_true (List.mem_filter.1 ha).2
    have hb := of_decide_eq_true (List.mem_filter.1 hb).2
    exact decide_eq_true (Nat.le_of_eq (ha.trans hb.symm))
  have hkept := (List.sublist_mergeSort (decide_key_trans key) (decide_key_total key) hclass
    List.filter_sublist).filter fun a => key a = k
  rw [List.filter_filter] at hkept
  have hlength := ((List.mergeSort_perm as fun a b => key a ≤ key b).filter
    fun a => decide (key a = k)).length_eq
  simp only [Bool.and_self] at hkept
  exact (hkept.eq_of_length hlength.symm).symm

end Sorting

namespace Forest

theorem edgesByAnchor_perm (f : Forest W H) : f.edgesByAnchor.Perm f.edges :=
  List.mergeSort_perm _ _

theorem pairwise_edgesByAnchor (f : Forest W H) :
    f.edgesByAnchor.Pairwise fun d e => d.second.anchorPos ≤ e.second.anchorPos :=
  pairwise_mergeSort_key (fun e : Edge (AnchoredTree W) => e.second.anchorPos) f.edges

theorem filter_edgesByAnchor (f : Forest W H) (pos : Nat) :
    (f.edgesByAnchor.filter fun e => e.second.anchorPos = pos) =
      f.edges.filter fun e => e.second.anchorPos = pos :=
  filter_mergeSort_key (fun e : Edge (AnchoredTree W) => e.second.anchorPos) f.edges pos

end Forest

/-! ## Calls -/

/-- A call of a renderer, with the handles that it gives back or takes. -/
inductive Call (W H : Type) where
  | node (t : AnchoredTree W) (handle : H)
  | edge (e : Edge (AnchoredTree W)) (source target : H)

inductive Renderer.Serves (r : Renderer W H S) : S → List (Call W H) → S → Prop where
  | done {s : S} : Serves r s [] s
  | node {t : AnchoredTree W} {s s' : S} {calls : List (Call W H)}
      (h : Serves r (r.node t s).2 calls s') : Serves r s (.node t (r.node t s).1 :: calls) s'
  | edge {e : Edge (AnchoredTree W)} {source target : H} {s s' : S} {calls : List (Call W H)}
      (h : Serves r (r.edge e source target s) calls s') :
      Serves r s (.edge e source target :: calls) s'

theorem Renderer.Serves.append {r : Renderer W H S} {s s' s'' : S} {calls later : List (Call W H)}
    (h : r.Serves s calls s') (h' : r.Serves s' later s'') : r.Serves s (calls ++ later) s'' := by
  induction h with
  | done => exact h'
  | node _ ih => exact .node (ih h')
  | edge _ ih => exact .edge (ih h')

namespace Forest

/-- The nodes are asked for in order, and each keeps the handle that comes back. -/
theorem exists_named_drawNodes (r : Renderer W H S) (ts : List (AnchoredTree W)) (s : S) :
    ∃ named : List (AnchoredTree W × H), named.map Prod.fst = ts ∧
      (drawNodes r ts s).1 = named.map (fun q => (q.1, some q.2)) ∧
        r.Serves s (named.map fun q => .node q.1 q.2) (drawNodes r ts s).2 := by
  induction ts generalizing s with
  | nil => exact ⟨[], rfl, rfl, .done⟩
  | cons t rest ih =>
      obtain ⟨named, hnamed, hnodes, hserves⟩ := ih (r.node t s).2
      refine ⟨(t, (r.node t s).1) :: named, by rw [List.map_cons, hnamed], ?_, .node hserves⟩
      exact congrArg ((t, some (r.node t s).1) :: ·) hnodes

/-- Whether the call draws the edge between handles that its ends are named by. -/
def DrawnBy (named : List (AnchoredTree W × H)) (e : Edge (AnchoredTree W)) (call : Call W H) :
    Prop :=
  ∃ source target, (e.first, source) ∈ named ∧ (e.second, target) ∈ named ∧
    call = .edge e source target

/-- Edges whose ends have handles are all drawn, in turn. -/
theorem exists_calls_drawEdge (r : Renderer W H S) {f : Forest W H}
    {named : List (AnchoredTree W × H)} (hhandles : ∀ q ∈ named, f.handle? q.1 = some q.2)
    {edges : List (Edge (AnchoredTree W))} (h : ∀ e ∈ edges, ∃ call, DrawnBy named e call) (s : S) :
    ∃ calls, List.Forall₂ (DrawnBy named) edges calls ∧
      r.Serves s calls (edges.foldl (drawEdge r f) s) := by
  induction edges generalizing s with
  | nil => exact ⟨[], .nil, .done⟩
  | cons e rest ih =>
      obtain ⟨⟨_, source, target, hsource, htarget, rfl⟩, hrest⟩ := List.forall_mem_cons.1 h
      obtain ⟨calls, hcalls, hserves⟩ := ih hrest (r.edge e source target s)
      refine ⟨_, .cons ⟨source, target, hsource, htarget, rfl⟩ hcalls, .edge ?_⟩
      rw [List.foldl_cons, drawEdge, hhandles _ hsource, hhandles _ htarget]
      exact hserves

/-! ## Drawings -/

theorem draw_eq {r : Renderer W H S} {f : Forest W H} {s : S}
    {named : List (AnchoredTree W × H)}
    (hnodes : (drawNodes r f.trees s).1 = named.map fun q => (q.1, some q.2)) :
    f.draw r s =
      let g := { f with nodes := (named.map fun q => (q.1, some q.2)).toArray }
      (g, f.edgesByAnchor.foldl (drawEdge r g) (drawNodes r f.trees s).2) := by
  rw [← hnodes]
  rfl

/-- In a forest that knows the places of its nodes, each gets its own handle. -/
theorem Coherent.handle?_of_named {f : Forest W H} (h : f.Coherent)
    {named : List (AnchoredTree W × H)} (hnamed : named.map Prod.fst = f.trees)
    {q : AnchoredTree W × H} (hq : q ∈ named) :
    ({ f with nodes := (named.map fun q => (q.1, some q.2)).toArray } : Forest W H).handle? q.1 =
      some q.2 := by
  obtain ⟨i, hi⟩ := List.getElem?_of_mem hq
  have htree : f.trees[i]? = some q.1 := by rw [← hnamed, List.getElem?_map, hi]; rfl
  have hposition : f.positions[q.1.id]? = some i := h.positions.2 ⟨q.1, htree, rfl⟩
  simp [handle?, hposition, hi]

/-- Whether the calls are for the nodes in order and then for the edges by anchor position. -/
structure DrawnInFull (r : Renderer W H S) (f : Forest W H) (s : S)
    (named : List (AnchoredTree W × H)) (calls : List (Call W H)) : Prop where
  serves : r.Serves s (named.map (fun q => .node q.1 q.2) ++ calls) (f.draw r s).2
  nodes : named.map Prod.fst = f.trees
  edges : List.Forall₂ (DrawnBy named) f.edgesByAnchor calls
  handles : ∀ q ∈ named, (f.draw r s).1.handle? q.1 = some q.2

theorem Coherent.exists_drawnInFull {f : Forest W H} (h : f.Coherent)
    (hends : ∀ e ∈ f.edges, e.first ∈ f.trees ∧ e.second ∈ f.trees) (r : Renderer W H S) (s : S) :
    ∃ named calls, f.DrawnInFull r s named calls := by
  obtain ⟨named, hnamed, hnodes, hserves⟩ := exists_named_drawNodes r f.trees s
  have hdraw := draw_eq hnodes
  have hhandles : ∀ q ∈ named, (f.draw r s).1.handle? q.1 = some q.2 := fun q hq => by
    rw [hdraw]
    exact h.handle?_of_named hnamed hq
  have hends : ∀ e ∈ f.edgesByAnchor, ∃ call, DrawnBy named e call := fun e he => by
    obtain ⟨hfirst, hsecond⟩ := hends e (f.edgesByAnchor_perm.subset he)
    rw [← hnamed, List.mem_map] at hfirst hsecond
    obtain ⟨⟨_, source⟩, hsource, rfl⟩ := hfirst
    obtain ⟨⟨_, target⟩, htarget, rfl⟩ := hsecond
    exact ⟨_, source, target, hsource, htarget, rfl⟩
  obtain ⟨calls, hcalls, hlater⟩ :=
    exists_calls_drawEdge r hhandles hends (drawNodes r f.trees s).2
  refine ⟨named, calls, hserves.append ?_, hnamed, hcalls, hhandles⟩
  rw [hdraw] at hlater ⊢
  exact hlater

end Forest

namespace Grammar

/--
Whatever was done to a forest before, a drawing of it names each node once and then draws
each edge once, the edges by the anchor position of their second tree and else as they came
in, and between the handles that the renderer gave to the two ends.  Afterwards each node has
its handle, and nodes and edges are the same.
-/
theorem drawn_in_full [One W] [Mul W] (g : Grammar W) (input : List String) {grove : Grove W}
    (h : grove.Reachable (g.parse input)) {p : Plot W} (hp : p ∈ grove)
    (r : Renderer W p.Handle S) (s : S) :
    (∃ named calls, p.forest.DrawnInFull r s named calls) ∧
      (p.forest.trees.map AnchoredTree.id).Nodup ∧ p.forest.edges.Nodup ∧
      (p.forest.edgesByAnchor.Perm p.forest.edges ∧
        (p.forest.edgesByAnchor.Pairwise fun d e => d.second.anchorPos ≤ e.second.anchorPos) ∧
        ∀ pos, (p.forest.edgesByAnchor.filter fun e => e.second.anchorPos = pos) =
          p.forest.edges.filter fun e => e.second.anchorPos = pos) ∧
      (p.forest.draw r s).1.Alike p.forest := by
  have hsel := g.sound_select input
  have hmade := h.isMade ((g.reached_parse input).inv hsel) p hp
  exact ⟨hmade.coherent.exists_drawnInFull (fun _ he => hmade.ends hsel he) r s,
    hmade.coherent.nodup_ids, hmade.coherent.nodup.of_map,
    ⟨p.forest.edgesByAnchor_perm, p.forest.pairwise_edgesByAnchor, p.forest.filter_edgesByAnchor⟩,
    Forest.alike_draw r p.forest s⟩

def counting : Renderer W Nat (Nat × Nat) where
  node _ s := (s.1, (s.1 + 1, s.2))
  edge _ _ _ s := (s.1, s.2 + 1)

theorem drawn_big_dog :
    ∃ p : Plot Nat, Grove.Reachable (adjectives.parse ["big", "dog"]) [p] ∧
      p.forest.edges.length = 1 ∧ ∃ r : Renderer Nat p.Handle (Nat × Nat),
        (p.forest.draw r (0, 0)).2 = (2, 1) ∧
          ∃ named calls, p.forest.DrawnInFull r (0, 0) named calls := by
  have hlength : ((adjectives.parse ["big", "dog"]).packedForest :
      Forest Nat Nat).edges.length = 1 := by decide +kernel
  have hcounts : ((adjectives.parse ["big", "dog"]).packedForest.draw counting (0, 0)).2 =
      (2, 1) := by decide +kernel
  have hreachable : Grove.Reachable (adjectives.parse ["big", "dog"])
      [⟨Nat, (adjectives.parse ["big", "dog"]).packedForest,
        (adjectives.parse ["big", "dog"]).packing⟩] := .single ⟨_, .pack (g := []) Nat⟩
  exact ⟨_, hreachable, hlength, counting, hcounts,
    (drawn_in_full adjectives _ hreachable List.mem_cons_self counting (0, 0)).1⟩

end Grammar

end TreeInsertion
