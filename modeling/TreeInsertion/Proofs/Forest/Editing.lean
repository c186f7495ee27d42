import TreeInsertion.Forest.Drawing
import TreeInsertion.Proofs.Forest.Insertion

/-!
# Changes to a forest

A forest is what the changes asked of it have made, one after the other.  Its nodes
stand in the order in which they first came up, and its edges in the order in which they
came in for the last time.  Handles are no part of this.
-/

namespace TreeInsertion

variable {W H K : Type}

inductive Change (W : Type) where
  | node (t : AnchoredTree W)
  | edge (e : Edge (AnchoredTree W))
  | cut (e : Edge (AnchoredTree W))

namespace Change

/-- The trees that are nodes afterwards, whether they were before or not. -/
def nodes : Change W → List (AnchoredTree W)
  | node t => [t]
  | edge e => [e.first, e.second]
  | cut _ => []

def Selected (sel : Selection W) : Change W → Prop
  | node t => t ∈ sel.trees
  | edge e => e.first ∈ sel.trees ∧ e.second ∈ sel.trees
  | cut e => e.first ∈ sel.trees ∧ e.second ∈ sel.trees

end Change

namespace Forest

def change (f : Forest W H) : Change W → Bool × Forest W H
  | .node t => f.addNode t
  | .edge e => f.addEdge e
  | .cut e => f.removeEdge e

/-! ## Removal -/

/-- Where keys differ, what is erased at a key is all that is there. -/
theorem eraseP_key {edges : List (Edge (AnchoredTree W))} (h : (edges.map Edge.key).Nodup)
    (k : Edge Nat) :
    edges.eraseP (fun d => d.key = k) = edges.filter fun d => d.key ≠ k := by
  induction edges with
  | nil => rfl
  | cons d rest ih =>
      obtain ⟨hnew, hrest⟩ := List.nodup_cons.1 h
      by_cases hd : d.key = k
      · have hothers : ∀ d' ∈ rest, decide (d'.key ≠ k) = true := fun d' hd' => by
          simp only [ne_eq, decide_not, Bool.not_eq_true', decide_eq_false_iff_not]
          exact fun heq => hnew (hd ▸ heq ▸ List.mem_map_of_mem hd')
        rw [List.eraseP_cons_of_pos (by simpa using hd),
          List.filter_cons_of_neg (by simpa using hd), List.filter_eq_self.2 hothers]
      · rw [List.eraseP_cons_of_neg (by simpa using hd),
          List.filter_cons_of_pos (by simpa using hd), ih hrest]

theorem Coherent.removeEdge_eq {f : Forest W H} (h : f.Coherent) (e : Edge (AnchoredTree W)) :
    f.removeEdge e =
      (f.hasEdge e, { f with edges := f.edges.filter fun d => d.key ≠ e.key }) := by
  rw [removeEdge, eraseP_key h.nodup]

theorem Coherent.removeEdge {f : Forest W H} (h : f.Coherent) (e : Edge (AnchoredTree W)) :
    (f.removeEdge e).2.Coherent where
  positions := h.positions
  nodup := h.nodup.sublist (List.eraseP_sublist.map Edge.key)
  ends d hd := h.ends d (List.mem_of_mem_eraseP hd)

theorem Coherent.change {f : Forest W H} (h : f.Coherent) (x : Change W) :
    (f.change x).2.Coherent := by
  cases x with
  | node t => exact h.addNode t
  | edge e => exact h.addEdge e
  | cut e => exact h.removeEdge e

/-! ## Changes that are none -/

theorem addNode_changes_iff (f : Forest W H) (t : AnchoredTree W) :
    (f.addNode t).1 = true ↔ (f.addNode t).2 ≠ f := by
  cases h : f.contains t with
  | true => simp [addNode_of_contains h]
  | false =>
      rw [addNode_of_new h]
      refine iff_of_true rfl fun heq => ?_
      have hsize := congrArg Forest.size heq
      simp [Forest.size] at hsize

theorem addEdge_changes_iff (f : Forest W H) (e : Edge (AnchoredTree W)) :
    (f.addEdge e).1 = true ↔ (f.addEdge e).2 ≠ f := by
  cases h : f.hasEdge e with
  | true => simp [addEdge_of_hasEdge h]
  | false =>
      rw [addEdge_of_new h]
      refine iff_of_true rfl fun heq => ?_
      have hlength := congrArg (fun g => g.edges.length) heq
      simp at hlength

/-! ## Forests that differ in handles only -/

/-- Whether the forests have the same nodes and edges. -/
structure Alike (f : Forest W H) (g : Forest W K) : Prop where
  trees : f.trees = g.trees
  positions : f.positions = g.positions
  edges : f.edges = g.edges

theorem Alike.trans {L : Type} {f : Forest W H} {g : Forest W K} {k : Forest W L}
    (h : f.Alike g) (h' : g.Alike k) : f.Alike k :=
  ⟨h.trees.trans h'.trees, h.positions.trans h'.positions, h.edges.trans h'.edges⟩

theorem alike_withoutHandles (f : Forest W H) : (f.withoutHandles : Forest W K).Alike f := by
  constructor <;> simp [withoutHandles, trees]

theorem map_fst_drawNodes {S : Type} (r : Renderer W H S) (ts : List (AnchoredTree W)) (s : S) :
    (drawNodes r ts s).1.map Prod.fst = ts := by
  induction ts generalizing s with
  | nil => rfl
  | cons t rest ih => simp [drawNodes, ih]

theorem alike_draw {S : Type} (r : Renderer W H S) (f : Forest W H) (s : S) :
    (f.draw r s).1.Alike f := by
  constructor <;> simp [draw, trees, map_fst_drawNodes]

namespace Alike

variable {f : Forest W H} {g : Forest W K}

theorem coherent (h : f.Alike g) (hg : g.Coherent) : f.Coherent where
  positions := by
    rw [h.positions, h.trees]
    exact hg.positions
  nodup := by
    rw [h.edges]
    exact hg.nodup
  ends := by
    simp only [h.edges, HasNode, h.trees]
    exact hg.ends

theorem contains (h : f.Alike g) (t : AnchoredTree W) : f.contains t = g.contains t := by
  rw [Forest.contains, Forest.contains, h.positions]

theorem hasEdge (h : f.Alike g) (e : Edge (AnchoredTree W)) : f.hasEdge e = g.hasEdge e := by
  rw [Forest.hasEdge, Forest.hasEdge, h.edges]

theorem addNode (h : f.Alike g) (t : AnchoredTree W) :
    (f.addNode t).2.Alike (g.addNode t).2 := by
  refine ⟨?_, ?_, ?_⟩
  · rw [trees_addNode, trees_addNode, h.trees, h.contains]
  · have hsize : f.nodes.size = g.nodes.size := by
      rw [← length_trees, ← length_trees, h.trees]
    simp only [Forest.addNode, h.contains, h.positions, hsize]
    split <;> simp [h.positions]
  · rw [edges_addNode, edges_addNode, h.edges]

theorem addEdge (h : f.Alike g) (e : Edge (AnchoredTree W)) :
    (f.addEdge e).2.Alike (g.addEdge e).2 := by
  cases hnew : g.hasEdge e with
  | true => rwa [addEdge_of_hasEdge hnew, addEdge_of_hasEdge ((h.hasEdge e).trans hnew)]
  | false =>
      have hends := (h.addNode e.first).addNode e.second
      rw [addEdge_of_new hnew, addEdge_of_new ((h.hasEdge e).trans hnew)]
      exact ⟨hends.trees, hends.positions, by rw [h.edges]⟩

theorem change (h : f.Alike g) (x : Change W) : (f.change x).2.Alike (g.change x).2 := by
  cases x with
  | node t => exact h.addNode t
  | edge e => exact h.addEdge e
  | cut e => exact ⟨h.trees, h.positions, by simp only [Forest.change, removeEdge, h.edges]⟩

end Alike

/-! ## Histories -/

def replay (history : List (Change W)) : Forest W H :=
  history.foldl (fun f x => (f.change x).2) empty

theorem replay_concat (history : List (Change W)) (x : Change W) :
    (replay (history ++ [x]) : Forest W H) = ((replay history).change x).2 := by
  rw [replay, List.foldl_append]
  rfl

theorem replay_append_edges (history : List (Change W)) (analysis : Analysis W) :
    (replay (history ++ analysis.map .edge) : Forest W H) = (replay history).addAll analysis := by
  rw [replay, List.foldl_append, List.foldl_map]
  rfl

theorem alike_replay (history : List (Change W)) :
    (replay history : Forest W H).Alike (replay history : Forest W K) := by
  induction history using List.reverseRecOn with
  | nil => exact ⟨rfl, rfl, rfl⟩
  | append_singleton history x ih =>
      rw [replay_concat, replay_concat]
      exact ih.change x

theorem coherent_replay (history : List (Change W)) : (replay history : Forest W H).Coherent := by
  induction history using List.reverseRecOn with
  | nil => exact coherent_empty
  | append_singleton history x ih =>
      rw [replay_concat]
      exact ih.change x

/-- A forest made of trees of a selection has these alone. -/
theorem selected_replay {sel : Selection W} {history : List (Change W)}
    (h : ∀ x ∈ history, x.Selected sel) :
    (∀ t ∈ (replay history : Forest W H).trees, t ∈ sel.trees) ∧
      ∀ e ∈ (replay history : Forest W H).edges, e.first ∈ sel.trees ∧ e.second ∈ sel.trees := by
  induction history using List.reverseRecOn with
  | nil => simp [replay, empty, trees]
  | append_singleton history x ih =>
      obtain ⟨htrees, hedges⟩ := ih fun y hy => h y (List.mem_append_left _ hy)
      have hx : x.Selected sel := h x (by simp)
      rw [replay_concat]
      cases x with
      | node t =>
          refine ⟨fun u hu => ?_, fun e he => hedges e (by rwa [← edges_addNode _ t])⟩
          exact (mem_trees_addNode hu).elim (htrees u) fun heq => heq ▸ hx
      | edge e =>
          refine ⟨fun u hu => ?_, fun d hd => ?_⟩
          · rcases mem_trees_addEdge hu with hold | rfl | rfl
            · exact htrees u hold
            · exact hx.1
            · exact hx.2
          · rw [change, edges_addEdge, List.mem_append] at hd
            refine hd.elim (hedges d) fun hnew => ?_
            split at hnew
            · cases hnew
            · exact List.mem_singleton.1 hnew ▸ hx
      | cut e => exact ⟨htrees, fun d hd => hedges d (List.mem_of_mem_eraseP hd)⟩

/-! ### The order of nodes -/

theorem eraseDups_concat (ids : List Nat) (id : Nat) :
    (ids ++ [id]).eraseDups = ids.eraseDups ++ if id ∈ ids then [] else [id] := by
  rw [List.eraseDups_append]
  split <;> simp_all [List.removeAll, List.eraseDups_cons]

theorem Coherent.ids_addNode {f : Forest W H} (h : f.Coherent) {ids : List Nat}
    (hids : f.trees.map AnchoredTree.id = ids.eraseDups) (t : AnchoredTree W) :
    (f.addNode t).2.trees.map AnchoredTree.id = (ids ++ [t.id]).eraseDups := by
  have hmem : f.contains t = true ↔ t.id ∈ ids := by
    rw [h.contains_iff, ← List.mem_eraseDups, ← hids, List.mem_map]
    rfl
  rw [trees_addNode, List.map_append, hids, eraseDups_concat]
  split <;> simp_all

/-- The ends of a known edge are known too. -/
theorem Coherent.trees_addEdge {f : Forest W H} (h : f.Coherent) (e : Edge (AnchoredTree W)) :
    (f.addEdge e).2.trees = ((f.addNode e.first).2.addNode e.second).2.trees := by
  cases hnew : f.hasEdge e with
  | true =>
      obtain ⟨d, hd, hkey⟩ := List.mem_map.1 (hasEdge_iff.1 hnew)
      obtain ⟨hfirst, hsecond⟩ := h.ends d hd
      rw [show d.first.id = e.first.id from congrArg Edge.first hkey, ← h.contains_iff] at hfirst
      rw [show d.second.id = e.second.id from congrArg Edge.second hkey, ← h.contains_iff]
        at hsecond
      rw [addEdge_of_hasEdge hnew, addNode_of_contains hfirst, addNode_of_contains hsecond]
  | false => rw [addEdge_of_new hnew]; rfl

/-- The nodes are the trees that came up, in the order in which they did first. -/
theorem ids_replay (history : List (Change W)) :
    (replay history : Forest W H).trees.map AnchoredTree.id =
      ((history.flatMap Change.nodes).map AnchoredTree.id).eraseDups := by
  induction history using List.reverseRecOn with
  | nil => rfl
  | append_singleton history x ih =>
      have hcoherent := coherent_replay (H := H) history
      rw [replay_concat, List.flatMap_append, List.map_append, List.flatMap_singleton]
      cases x with
      | node t => exact hcoherent.ids_addNode ih t
      | edge e =>
          have hfirst := hcoherent.ids_addNode ih e.first
          have hboth := (hcoherent.addNode e.first).ids_addNode hfirst e.second
          rw [List.append_assoc] at hboth
          rw [change, hcoherent.trees_addEdge]
          exact hboth
      | cut e =>
          rw [Change.nodes, List.map_nil, List.append_nil]
          exact ih

/-! ### The order of edges -/

/-- Whether the change at place `i` of the history put the edge in. -/
def Admits (history : List (Change W)) (i : Nat) (e : Edge (AnchoredTree W)) : Prop :=
  history[i]? = some (.edge e) ∧ ((replay (history.take i) : Forest W Unit).addEdge e).1 = true

/-- Whether the edge came in at place `i` for the last time. -/
def AdmitsLast (history : List (Change W)) (i : Nat) (e : Edge (AnchoredTree W)) : Prop :=
  Admits history i e ∧ ∀ j, i < j → ¬ Admits history j e

theorem Admits.lt_length {history : List (Change W)} {i : Nat} {e : Edge (AnchoredTree W)}
    (h : Admits history i e) : i < history.length :=
  (List.getElem?_eq_some_iff.1 h.1).1

theorem admits_concat {history : List (Change W)} {x : Change W} {i : Nat}
    {e : Edge (AnchoredTree W)} :
    Admits (history ++ [x]) i e ↔ Admits history i e ∨
      i = history.length ∧ x = .edge e ∧
        ((replay history : Forest W Unit).addEdge e).1 = true := by
  rcases Nat.lt_trichotomy i history.length with hlt | rfl | hgt
  · have hne := Nat.ne_of_lt hlt
    simp [Admits, List.getElem?_append_left hlt, List.take_append_of_le_length (Nat.le_of_lt hlt),
      hne]
  · simp [Admits]
  · have hold : ¬ Admits history i e := fun h => Nat.lt_asymm hgt h.lt_length
    have hnew : ¬ Admits (history ++ [x]) i e := fun h => by
      have hlt := h.lt_length
      rw [List.length_append, List.length_singleton] at hlt
      omega
    exact iff_of_false hnew (not_or.2 ⟨hold, fun h => Nat.ne_of_gt hgt h.1⟩)

/-- An edge that is there is not put in once more. -/
theorem AdmitsLast.concat {history : List (Change W)} {i : Nat} {e : Edge (AnchoredTree W)}
    (h : AdmitsLast history i e) (he : e ∈ (replay history : Forest W Unit).edges)
    (x : Change W) : AdmitsLast (history ++ [x]) i e := by
  refine ⟨admits_concat.2 (Or.inl h.1), fun j hj hadmits => ?_⟩
  rcases admits_concat.1 hadmits with hold | ⟨-, -, hnew⟩
  · exact h.2 j hj hold
  · rw [addEdge_of_hasEdge (hasEdge_iff.2 (List.mem_map_of_mem he))] at hnew
    cases hnew

theorem admitsLast_concat_of_new {history : List (Change W)} {e : Edge (AnchoredTree W)}
    (h : (replay history : Forest W Unit).hasEdge e = false) :
    AdmitsLast (history ++ [.edge e]) history.length e := by
  refine ⟨admits_concat.2 (Or.inr ⟨rfl, rfl, by rw [addEdge_of_new h]⟩), fun j hj hadmits => ?_⟩
  rcases admits_concat.1 hadmits with hold | ⟨rfl, -⟩
  · exact Nat.lt_asymm hj hold.lt_length
  · exact Nat.lt_irrefl _ hj

/-- Whether the edges stand in the order in which they came in for the last time. -/
structure InOrder (history : List (Change W)) (edges : List (Edge (AnchoredTree W))) : Prop where
  admitted : ∀ e ∈ edges, ∃ i, AdmitsLast history i e
  increasing : edges.Pairwise fun d e =>
    ∃ i j, i < j ∧ AdmitsLast history i d ∧ AdmitsLast history j e

namespace InOrder

variable {history : List (Change W)} {edges : List (Edge (AnchoredTree W))}

theorem sublist (h : InOrder history edges) {kept : List (Edge (AnchoredTree W))}
    (hkept : kept.Sublist edges) : InOrder history kept :=
  ⟨fun e he => h.admitted e (hkept.subset he), h.increasing.sublist hkept⟩

theorem concat (h : InOrder history edges)
    (hedges : ∀ e ∈ edges, e ∈ (replay history : Forest W Unit).edges) (x : Change W) :
    InOrder (history ++ [x]) edges where
  admitted e he := by
    obtain ⟨i, hi⟩ := h.admitted e he
    exact ⟨i, hi.concat (hedges e he) x⟩
  increasing := by
    refine h.increasing.imp_of_mem fun hd he => ?_
    rintro ⟨i, j, hij, hi, hj⟩
    exact ⟨i, j, hij, hi.concat (hedges _ hd) x, hj.concat (hedges _ he) x⟩

/-- A new edge comes last, and all others came in before. -/
theorem append_new (h : InOrder history (replay history : Forest W Unit).edges)
    {e : Edge (AnchoredTree W)} (hnew : (replay history : Forest W Unit).hasEdge e = false) :
    InOrder (history ++ [.edge e]) ((replay history : Forest W Unit).edges ++ [e]) := by
  have hold := h.concat (fun _ he => he) (.edge e)
  have hlast := admitsLast_concat_of_new hnew
  constructor
  · intro d hd
    rcases List.mem_append.1 hd with hd | hd
    · exact hold.admitted d hd
    · cases List.mem_singleton.1 hd
      exact ⟨_, hlast⟩
  · refine List.pairwise_append.2 ⟨hold.increasing, List.pairwise_singleton _ _, ?_⟩
    intro d hd d' hd'
    cases List.mem_singleton.1 hd'
    obtain ⟨i, hi⟩ := h.admitted d hd
    exact ⟨i, _, hi.1.lt_length, hi.concat hd _, hlast⟩

end InOrder

theorem inOrder_replay (history : List (Change W)) :
    InOrder history (replay history : Forest W Unit).edges := by
  induction history using List.reverseRecOn with
  | nil => exact ⟨by simp [replay, empty], .nil⟩
  | append_singleton history x ih =>
      have hkept := ih.concat (fun _ he => he) x
      rw [replay_concat]
      cases x with
      | node t => rwa [change, edges_addNode]
      | edge e =>
          cases hnew : (replay history : Forest W Unit).hasEdge e with
          | true => rwa [change, addEdge_of_hasEdge hnew]
          | false =>
              rw [change, addEdge_of_new hnew]
              exact ih.append_new hnew
      | cut e => exact hkept.sublist List.eraseP_sublist

end Forest

end TreeInsertion
