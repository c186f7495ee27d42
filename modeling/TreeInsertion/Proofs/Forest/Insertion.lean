import Mathlib.Data.List.Nodup
import TreeInsertion.Forest.Readings
import TreeInsertion.Proofs.Selection

/-!
# Growing forests

A forest knows the places of its nodes, holds no node and no edge twice, and has the
ends of its edges among its nodes.  New nodes and edges come last.
-/

namespace TreeInsertion

/-- Between trees of a selection, the key of an edge tells it. -/
theorem Edge.eq_of_key_eq {W : Type} {sel : Selection W} (hsel : sel.Sound)
    {d e : Edge (AnchoredTree W)} (hd : d.first ∈ sel.trees ∧ d.second ∈ sel.trees)
    (he : e.first ∈ sel.trees ∧ e.second ∈ sel.trees) (hkey : d.key = e.key) : d = e := by
  obtain ⟨first, second, connector, attachment⟩ := d
  obtain ⟨first', second', connector', attachment'⟩ := e
  simp only [key, map, mk.injEq] at hkey
  obtain ⟨hfirst, hsecond, rfl, rfl⟩ := hkey
  cases hsel.eq_of_id_eq hd.1 he.1 hfirst
  cases hsel.eq_of_id_eq hd.2 he.2 hsecond
  rfl

namespace Forest

variable {W H : Type}

def HasNode (f : Forest W H) (id : Nat) : Prop :=
  ∃ t ∈ f.trees, t.id = id

/-- What every forest keeps while it grows. -/
structure Coherent (f : Forest W H) : Prop where
  positions : ∀ {id i : Nat},
    f.positions[id]? = some i ↔ ∃ t, f.trees[i]? = some t ∧ t.id = id
  nodup : (f.edges.map Edge.key).Nodup
  ends : ∀ e ∈ f.edges, f.HasNode e.first.id ∧ f.HasNode e.second.id

theorem coherent_empty : (empty : Forest W H).Coherent := by
  constructor <;> simp [empty, trees]

theorem length_trees (f : Forest W H) : f.trees.length = f.nodes.size := by
  simp [trees]

namespace Coherent

variable {f : Forest W H}

theorem contains_iff (h : f.Coherent) {t : AnchoredTree W} :
    f.contains t = true ↔ f.HasNode t.id := by
  rw [contains, Std.TreeMap.contains_eq_isSome_getElem?, Option.isSome_iff_exists]
  constructor
  · rintro ⟨i, hi⟩
    obtain ⟨u, hu, hid⟩ := h.positions.1 hi
    exact ⟨u, List.mem_of_getElem? hu, hid⟩
  · rintro ⟨u, hu, hid⟩
    obtain ⟨i, hi⟩ := List.getElem?_of_mem hu
    exact ⟨i, h.positions.2 ⟨u, hi, hid⟩⟩

theorem nodup_ids (h : f.Coherent) : (f.trees.map AnchoredTree.id).Nodup := by
  rw [List.nodup_iff_injective_getElem]
  intro ⟨i, hi⟩ ⟨j, hj⟩ heq
  rw [List.length_map] at hi hj
  have hplace {k : Nat} (hk : k < f.trees.length) :
      f.positions[f.trees[k].id]? = some k :=
    h.positions.2 ⟨_, List.getElem?_eq_getElem hk, rfl⟩
  have hsame : f.trees[i].id = f.trees[j].id := by simpa using heq
  have hij := hplace hi
  rw [hsame, hplace hj] at hij
  exact Fin.ext (Option.some.inj hij).symm

end Coherent

/-! ## Nodes -/

theorem addNode_of_contains {f : Forest W H} {t : AnchoredTree W} (h : f.contains t = true) :
    f.addNode t = (false, f) := by
  simp [addNode, h]

theorem addNode_of_new {f : Forest W H} {t : AnchoredTree W} (h : f.contains t = false) :
    f.addNode t = (true, { f with
      nodes := f.nodes.push (t, none)
      positions := f.positions.insert t.id f.nodes.size }) := by
  simp [addNode, h]

theorem trees_addNode (f : Forest W H) (t : AnchoredTree W) :
    (f.addNode t).2.trees = f.trees ++ if f.contains t then [] else [t] := by
  cases h : f.contains t with
  | true => simp [addNode_of_contains h]
  | false => simp [addNode_of_new h, trees]

theorem edges_addNode (f : Forest W H) (t : AnchoredTree W) :
    (f.addNode t).2.edges = f.edges := by
  unfold addNode
  split <;> rfl

theorem prefix_addNode (f : Forest W H) (t : AnchoredTree W) :
    f.trees <+: (f.addNode t).2.trees := by
  rw [trees_addNode]
  exact List.prefix_append _ _

theorem mem_trees_addNode {f : Forest W H} {t u : AnchoredTree W}
    (h : u ∈ (f.addNode t).2.trees) : u ∈ f.trees ∨ u = t := by
  rw [trees_addNode, List.mem_append] at h
  refine h.imp_right fun hu => ?_
  split at hu <;> simp_all

theorem HasNode.mono {f g : Forest W H} (h : f.trees <+: g.trees) {id : Nat}
    (hid : f.HasNode id) : g.HasNode id := by
  obtain ⟨t, ht, hid⟩ := hid
  exact ⟨t, h.subset ht, hid⟩

theorem Coherent.hasNode_addNode {f : Forest W H} (h : f.Coherent) (t : AnchoredTree W) :
    (f.addNode t).2.HasNode t.id := by
  cases hcontains : f.contains t with
  | true =>
      rw [addNode_of_contains hcontains]
      exact h.contains_iff.1 hcontains
  | false => exact ⟨t, by simp [trees_addNode, hcontains], rfl⟩

theorem Coherent.addNode {f : Forest W H} (h : f.Coherent) (t : AnchoredTree W) :
    (f.addNode t).2.Coherent := by
  cases hcontains : f.contains t with
  | true =>
      rw [addNode_of_contains hcontains]
      exact h
  | false =>
      refine ⟨?_, edges_addNode f t ▸ h.nodup, fun e he => ?_⟩
      · intro id i
        rw [trees_addNode, hcontains, addNode_of_new hcontains, Std.TreeMap.getElem?_insert]
        by_cases hid : t.id = id
        · -- the number is new, so no earlier node has it
          have hnew : ∀ u ∈ f.trees, u.id ≠ id := fun u hu heq => by
            have hmem := h.contains_iff.2 ⟨u, hu, heq.trans hid.symm⟩
            rw [hcontains] at hmem
            cases hmem
          have hcompare : compare t.id id = .eq := by simp [hid]
          simp only [hcompare, if_true, Bool.false_eq_true, if_false, Option.some.injEq,
            ← length_trees]
          constructor
          · rintro rfl
            exact ⟨t, by simp, hid⟩
          · rintro ⟨u, hu, heq⟩
            rw [List.getElem?_append] at hu
            split at hu
            · exact absurd heq (hnew u (List.mem_of_getElem? hu))
            · have hlt := (List.getElem?_eq_some_iff.1 hu).1
              simp only [List.length_singleton] at hlt
              omega
        · have hcompare : ¬ compare t.id id = .eq := by simp [hid]
          simp only [hcompare, if_false, Bool.false_eq_true, h.positions]
          constructor
          · rintro ⟨u, hu, heq⟩
            exact ⟨u, by rw [List.getElem?_append_left (List.getElem?_eq_some_iff.1 hu).1, hu], heq⟩
          · rintro ⟨u, hu, heq⟩
            rw [List.getElem?_append] at hu
            split at hu
            · exact ⟨u, hu, heq⟩
            · have hmem := List.mem_of_getElem? hu
              rw [List.mem_singleton] at hmem
              exact absurd (hmem ▸ heq) hid
      · rw [edges_addNode] at he
        exact (h.ends e he).imp (.mono (prefix_addNode f t)) (.mono (prefix_addNode f t))

/-! ## Edges -/

theorem hasEdge_iff {f : Forest W H} {e : Edge (AnchoredTree W)} :
    f.hasEdge e = true ↔ e.key ∈ f.edges.map Edge.key := by
  simp only [hasEdge, List.any_eq_true, decide_eq_true_eq, List.mem_map]

theorem addEdge_of_hasEdge {f : Forest W H} {e : Edge (AnchoredTree W)}
    (h : f.hasEdge e = true) : f.addEdge e = (false, f) := by
  simp [addEdge, h]

theorem addEdge_of_new {f : Forest W H} {e : Edge (AnchoredTree W)} (h : f.hasEdge e = false) :
    f.addEdge e = (true,
      { ((f.addNode e.first).2.addNode e.second).2 with edges := f.edges ++ [e] }) := by
  simp [addEdge, h, edges_addNode]

theorem edges_addEdge (f : Forest W H) (e : Edge (AnchoredTree W)) :
    (f.addEdge e).2.edges = f.edges ++ if f.hasEdge e then [] else [e] := by
  cases h : f.hasEdge e with
  | true => simp [addEdge_of_hasEdge h]
  | false => simp [addEdge_of_new h]

theorem prefix_addEdge (f : Forest W H) (e : Edge (AnchoredTree W)) :
    f.trees <+: (f.addEdge e).2.trees := by
  cases h : f.hasEdge e with
  | true => simp [addEdge_of_hasEdge h]
  | false =>
      rw [addEdge_of_new h]
      exact (prefix_addNode f e.first).trans (prefix_addNode _ e.second)

theorem mem_trees_addEdge {f : Forest W H} {e : Edge (AnchoredTree W)} {t : AnchoredTree W}
    (h : t ∈ (f.addEdge e).2.trees) : t ∈ f.trees ∨ t = e.first ∨ t = e.second := by
  cases hnew : f.hasEdge e with
  | true =>
      rw [addEdge_of_hasEdge hnew] at h
      exact Or.inl h
  | false =>
      rw [addEdge_of_new hnew] at h
      rcases mem_trees_addNode h with h | h
      · exact (mem_trees_addNode h).imp_right Or.inl
      · exact Or.inr (Or.inr h)

theorem Coherent.addEdge {f : Forest W H} (h : f.Coherent) (e : Edge (AnchoredTree W)) :
    (f.addEdge e).2.Coherent := by
  cases hnew : f.hasEdge e with
  | true =>
      rw [addEdge_of_hasEdge hnew]
      exact h
  | false =>
      have hfirst := h.addNode e.first
      have hboth := hfirst.addNode e.second
      have hgrown := prefix_addEdge f e
      rw [addEdge_of_new hnew] at hgrown ⊢
      refine ⟨hboth.positions, ?_, fun d hd => ?_⟩
      · have hkey : e.key ∉ f.edges.map Edge.key := fun hmem => by
          rw [hasEdge_iff.2 hmem] at hnew
          cases hnew
        rw [List.map_append, List.nodup_append]
        refine ⟨h.nodup, by simp, fun k hk k' hk' heq => hkey ?_⟩
        rw [List.map_singleton, List.mem_singleton] at hk'
        exact hk' ▸ heq ▸ hk
      · rcases List.mem_append.1 hd with hold | hlast
        · exact (h.ends d hold).imp (.mono hgrown) (.mono hgrown)
        · rw [List.mem_singleton.1 hlast]
          exact ⟨.mono (prefix_addNode _ e.second) (h.hasNode_addNode e.first),
            hfirst.hasNode_addNode e.second⟩

/-! ## Readings -/

def addAll (f : Forest W H) (analysis : Analysis W) : Forest W H :=
  analysis.foldl (fun f e => (f.addEdge e).2) f

theorem addAll_append (f : Forest W H) (E F : Analysis W) :
    f.addAll (E ++ F) = (f.addAll E).addAll F :=
  List.foldl_append

theorem prefix_addAll (f : Forest W H) (analysis : Analysis W) :
    f.trees <+: (f.addAll analysis).trees := by
  induction analysis generalizing f with
  | nil => exact List.prefix_rfl
  | cons e rest ih => exact (prefix_addEdge f e).trans (ih _)

theorem mem_trees_addAll {f : Forest W H} {analysis : Analysis W} {t : AnchoredTree W}
    (h : t ∈ (f.addAll analysis).trees) :
    t ∈ f.trees ∨ ∃ e ∈ analysis, t = e.first ∨ t = e.second := by
  induction analysis generalizing f with
  | nil => exact Or.inl h
  | cons e rest ih =>
      rcases ih h with hold | ⟨d, hd, hend⟩
      · exact (mem_trees_addEdge hold).imp_right fun hend => ⟨e, List.mem_cons_self, hend⟩
      · exact Or.inr ⟨d, List.mem_cons_of_mem e hd, hend⟩

/-- An added edge is one that was there before or one of those that were to be added. -/
theorem mem_edges_addAll {f : Forest W H} {analysis : Analysis W}
    {e : Edge (AnchoredTree W)} (he : e ∈ (f.addAll analysis).edges) :
    e ∈ f.edges ∨ e ∈ analysis := by
  induction analysis generalizing f with
  | nil => exact Or.inl he
  | cons d rest ih =>
      rcases ih he with hadded | hrest
      · rw [edges_addEdge, List.mem_append] at hadded
        refine hadded.imp_right fun hnew => ?_
        split at hnew <;> simp_all
      · exact Or.inr (List.mem_cons_of_mem d hrest)

theorem Coherent.addAll {f : Forest W H} (h : f.Coherent) (analysis : Analysis W) :
    (f.addAll analysis).Coherent := by
  induction analysis generalizing f with
  | nil => exact h
  | cons e rest ih => exact ih (h.addEdge e)

/-- Edges that are new and distinct are all added. -/
theorem edges_addAll {f : Forest W H} {analysis : Analysis W}
    (h : ((f.edges ++ analysis).map Edge.key).Nodup) :
    (f.addAll analysis).edges = f.edges ++ analysis := by
  induction analysis generalizing f with
  | nil => simp [addAll]
  | cons e rest ih =>
      have hnew : f.hasEdge e = false := by
        refine Bool.eq_false_iff.2 fun hmem => ?_
        rw [List.map_append, List.nodup_append] at h
        exact h.2.2 _ (hasEdge_iff.1 hmem) e.key (by simp) rfl
      have hedges : (f.addEdge e).2.edges = f.edges ++ [e] := by simp [edges_addEdge, hnew]
      have hrest := ih (f := (f.addEdge e).2) (by simpa [hedges] using h)
      rw [hedges, List.append_assoc] at hrest
      exact hrest

end Forest

namespace Chart

variable {W H : Type}

theorem readingOf_eq (root : AnchoredTree W) (analysis : Analysis W) :
    (readingOf root analysis : Forest W H) = (Forest.empty.addNode root).2.addAll analysis :=
  rfl

theorem trees_root (root : AnchoredTree W) :
    ((Forest.empty : Forest W H).addNode root).2.trees = [root] := by
  have hnew : (Forest.empty : Forest W H).contains root = false := by
    simp [Forest.contains, Forest.empty]
  rw [Forest.trees_addNode, hnew]
  rfl

/-- The first node of a reading is its root. -/
theorem head?_trees_readingOf (root : AnchoredTree W) (analysis : Analysis W) :
    (readingOf root analysis : Forest W H).trees.head? = some root := by
  obtain ⟨rest, hrest⟩ :=
    Forest.prefix_addAll ((Forest.empty : Forest W H).addNode root).2 analysis
  rw [readingOf_eq, ← hrest, trees_root]
  rfl

theorem coherent_readingOf (root : AnchoredTree W) (analysis : Analysis W) :
    (readingOf root analysis : Forest W H).Coherent :=
  (Forest.coherent_empty.addNode root).addAll analysis

end Chart

end TreeInsertion
