import TreeInsertion.Proofs.Forest.Editing
import TreeInsertion.Proofs.Forest.Packing

/-!
# Forests in use

Over one analysis any number of forests may be made, changed, copied and drawn, in any
order.  Each of them is what its own history has made, up to handles, and a copy takes
the history of its original along.
-/

namespace TreeInsertion

open Relation

variable {W H K : Type}

/-! ## Packing as a history -/

namespace Chart

def visits (c : Chart W) (fresh stack : List Nat) : List Nat :=
  match stack with
  | [] => []
  | id :: rest =>
      if _hfresh : id ∈ fresh then
        id :: c.visits (fresh.erase id) ((c.antecedentsOf id).reverse ++ rest)
      else c.visits fresh rest
termination_by stack.length + (fresh.flatMap c.antecedentsOf).length
decreasing_by
  · have := length_flatMap_erase c.antecedentsOf _hfresh
    simp only [List.length_append, List.length_reverse, List.length_cons]
    omega
  · simp only [List.length_cons]
    omega

theorem collect_eq_addAll (c : Chart W) (fresh stack : List Nat) (f : Forest W H) :
    c.collect fresh stack f = f.addAll ((c.visits fresh stack).flatMap c.edgesOf) := by
  fun_induction collect c fresh stack f with
  | case1 fresh f => rw [visits]; rfl
  | case2 fresh f id rest hfresh ih =>
      rw [visits, dif_pos hfresh, List.flatMap_cons, Forest.addAll_append, ih]
      rfl
  | case3 fresh f id rest hfresh ih => rw [visits, dif_neg hfresh, ih]

def packing (c : Chart W) : List (Change W) :=
  c.accepting.map (fun x => .node x.tree) ++
    ((c.visits (List.range c.items.size) (c.accepting.map Item.id).reverse).flatMap
      c.edgesOf).map .edge

theorem packedForest_eq_replay (c : Chart W) :
    (c.packedForest : Forest W H) = Forest.replay c.packing := by
  rw [packing, Forest.replay_append_edges, packedForest, collect_eq_addAll, Forest.replay,
    List.foldl_map]
  rfl

theorem Inv.selected_packing {sel : Selection W} {starts : SymbolSet} {n : Nat} {c : Chart W}
    (hinv : c.Inv sel starts n) : ∀ x ∈ c.packing, x.Selected sel := by
  intro x hx
  rcases List.mem_append.1 hx with hnode | hedge
  · obtain ⟨y, hy, rfl⟩ := List.mem_map.1 hnode
    exact (hinv.valid y (mem_items_of_mem_accepting hy)).tree
  · obtain ⟨e, he, rfl⟩ := List.mem_map.1 hedge
    obtain ⟨id, -, he⟩ := List.mem_flatMap.1 he
    exact hinv.ends_selected e he

end Chart

/-! ## Groves -/

/-- A forest with handles of some type, and the changes that have made it. -/
structure Plot (W : Type) where
  Handle : Type
  forest : Forest W Handle
  history : List (Change W)

namespace Plot

def change (p : Plot W) (x : Change W) : Plot W :=
  ⟨p.Handle, (p.forest.change x).2, p.history ++ [x]⟩

/-- Without handles, or with others from now on. -/
def detached (p : Plot W) (K : Type) : Plot W :=
  ⟨K, p.forest.withoutHandles, p.history⟩

def drawn {S : Type} (p : Plot W) (r : Renderer W p.Handle S) (s : S) : Plot W :=
  ⟨p.Handle, (p.forest.draw r s).1, p.history⟩

structure IsMade (sel : Selection W) (p : Plot W) : Prop where
  alike : p.forest.Alike (Forest.replay p.history : Forest W Unit)
  selected : ∀ x ∈ p.history, x.Selected sel

namespace IsMade

variable {sel : Selection W} {p : Plot W}

theorem change (h : p.IsMade sel) {x : Change W} (hx : x.Selected sel) :
    (p.change x).IsMade sel where
  alike := by
    rw [Plot.change, Forest.replay_concat]
    exact h.alike.change x
  selected y hy := by
    rcases List.mem_append.1 hy with hold | hlast
    · exact h.selected y hold
    · exact List.mem_singleton.1 hlast ▸ hx

theorem detached (h : p.IsMade sel) (K : Type) : (p.detached K).IsMade sel :=
  ⟨(Forest.alike_withoutHandles p.forest).trans h.alike, h.selected⟩

theorem drawn {S : Type} (h : p.IsMade sel) (r : Renderer W p.Handle S) (s : S) :
    (p.drawn r s).IsMade sel :=
  ⟨(Forest.alike_draw r p.forest s).trans h.alike, h.selected⟩

end IsMade

end Plot

abbrev Grove (W : Type) :=
  List (Plot W)

namespace Grove

/-- What can be done over an analysis, and the place of the forest that it is done to. -/
inductive Next (c : Chart W) : Nat → Grove W → Grove W → Prop where
  | create {g : Grove W} (H : Type) : Next c g.length g (g ++ [⟨H, .empty, []⟩])
  | pack {g : Grove W} (H : Type) : Next c g.length g (g ++ [⟨H, c.packedForest, c.packing⟩])
  | copy {g : Grove W} {p : Plot W} (hp : p ∈ g) : Next c g.length g (g ++ [p])
  | detach {g : Grove W} {p : Plot W} (hp : p ∈ g) (K : Type) :
      Next c g.length g (g ++ [p.detached K])
  | change {g : Grove W} {k : Nat} {p : Plot W} {x : Change W} (hp : g[k]? = some p)
      (hx : x.Selected c.selection) : Next c k g (g.set k (p.change x))
  | copyFrom {g : Grove W} {k : Nat} {p q : Plot W} (hp : g[k]? = some p) (hq : q ∈ g)
      (hsame : q.Handle = p.Handle) : Next c k g (g.set k q)
  | draw {g : Grove W} {k : Nat} {p : Plot W} {S : Type} (hp : g[k]? = some p)
      (r : Renderer W p.Handle S) (s : S) : Next c k g (g.set k (p.drawn r s))
  | reset {g : Grove W} {k : Nat} {p : Plot W} (hp : g[k]? = some p) :
      Next c k g (g.set k (p.detached p.Handle))

def Reachable (c : Chart W) (g : Grove W) : Prop :=
  ReflTransGen (fun g g' => ∃ k, Next c k g g') [] g

variable {c : Chart W} {g g' : Grove W} {k : Nat}

/-- Nothing is done to any other forest. -/
theorem Next.getElem?_of_ne (h : Next c k g g') {j : Nat} (hj : j < g.length) (hne : j ≠ k) :
    g'[j]? = g[j]? := by
  cases h with
  | create H => exact List.getElem?_append_left hj
  | pack H => exact List.getElem?_append_left hj
  | copy hp => exact List.getElem?_append_left hj
  | detach hp K => exact List.getElem?_append_left hj
  | change hp hx => exact List.getElem?_set_ne hne.symm
  | copyFrom hp hq hsame => exact List.getElem?_set_ne hne.symm
  | draw hp r s => exact List.getElem?_set_ne hne.symm
  | reset hp => exact List.getElem?_set_ne hne.symm

section Made

variable {sel : Selection W} {starts : SymbolSet} {n : Nat}

theorem Next.isMade (hinv : c.Inv sel starts n) (hnext : Next c k g g')
    (h : ∀ p ∈ g, p.IsMade sel) : ∀ p ∈ g', p.IsMade sel := by
  have hadd {q : Plot W} (hq : q.IsMade sel) : ∀ p ∈ g ++ [q], p.IsMade sel := fun p hp =>
    (List.mem_append.1 hp).elim (h p) fun hlast => List.mem_singleton.1 hlast ▸ hq
  have hset {q : Plot W} (hq : q.IsMade sel) : ∀ p ∈ g.set k q, p.IsMade sel := fun p hp =>
    (List.mem_or_eq_of_mem_set hp).elim (h p) fun heq => heq ▸ hq
  cases hnext with
  | create H => exact hadd ⟨⟨rfl, rfl, rfl⟩, by simp⟩
  | pack H =>
      refine hadd ⟨?_, hinv.selected_packing⟩
      rw [Chart.packedForest_eq_replay]
      exact Forest.alike_replay c.packing
  | copy hp => exact hadd (h _ hp)
  | detach hp K => exact hadd ((h _ hp).detached K)
  | change hp hx => exact hset ((h _ (List.mem_of_getElem? hp)).change (hinv.selection ▸ hx))
  | copyFrom hp hq hsame => exact hset (h _ hq)
  | draw hp r s => exact hset ((h _ (List.mem_of_getElem? hp)).drawn r s)
  | reset hp => exact hset ((h _ (List.mem_of_getElem? hp)).detached _)

theorem Reachable.isMade (hinv : c.Inv sel starts n) (h : g.Reachable c) :
    ∀ p ∈ g, p.IsMade sel := by
  induction h with
  | refl => simp
  | tail _ hnext ih =>
      obtain ⟨k, hnext⟩ := hnext
      exact hnext.isMade hinv ih

end Made

end Grove

/-! ## What a forest keeps -/

/-- What is so of a forest of a grove at any time. -/
structure Forest.Orderly (sel : Selection W) (history : List (Change W)) (f : Forest W H) :
    Prop where
  selected : ∀ t ∈ f.trees, t ∈ sel.trees
  positions : ∀ {id i : Nat},
    f.positions[id]? = some i ↔ ∃ t, f.trees[i]? = some t ∧ t.id = id
  ids_nodup : (f.trees.map AnchoredTree.id).Nodup
  edges_nodup : f.edges.Nodup
  ends : ∀ e ∈ f.edges, e.first ∈ f.trees ∧ e.second ∈ f.trees
  /-- The nodes come in the order in which they came up first. -/
  nodeOrder : f.trees.map AnchoredTree.id =
    ((history.flatMap Change.nodes).map AnchoredTree.id).eraseDups
  edgeOrder : Forest.InOrder history f.edges

/-- What the removal of an edge does, and what it tells. -/
structure Forest.Removes (f : Forest W H) (e : Edge (AnchoredTree W)) : Prop where
  told : (f.removeEdge e).1 = true ↔ e ∈ f.edges
  /-- Nothing but the list of edges is touched, and what stays keeps its order. -/
  result : (f.removeEdge e).2 = { f with edges := f.edges.filter fun d => d.key ≠ e.key }
  exact : ∀ d, d ∈ (f.removeEdge e).2.edges ↔ d ∈ f.edges ∧ d ≠ e

namespace Plot.IsMade

variable {sel : Selection W} {p : Plot W}

theorem coherent (h : p.IsMade sel) : p.forest.Coherent :=
  h.alike.coherent (Forest.coherent_replay p.history)

theorem trees_selected (h : p.IsMade sel) : ∀ t ∈ p.forest.trees, t ∈ sel.trees := by
  rw [h.alike.trees]
  exact (Forest.selected_replay h.selected).1

theorem ends_selected (h : p.IsMade sel) :
    ∀ e ∈ p.forest.edges, e.first ∈ sel.trees ∧ e.second ∈ sel.trees := by
  rw [h.alike.edges]
  exact (Forest.selected_replay h.selected).2

/-- A node with the number of a tree is the tree. -/
theorem mem_of_hasNode (h : p.IsMade sel) (hsel : sel.Sound) {t : AnchoredTree W}
    (ht : t ∈ sel.trees) (hnode : p.forest.HasNode t.id) : t ∈ p.forest.trees := by
  obtain ⟨u, hu, hid⟩ := hnode
  cases hsel.eq_of_id_eq (h.trees_selected u hu) ht hid
  exact hu

theorem ends (h : p.IsMade sel) (hsel : sel.Sound) {e : Edge (AnchoredTree W)}
    (he : e ∈ p.forest.edges) : e.first ∈ p.forest.trees ∧ e.second ∈ p.forest.trees :=
  ⟨h.mem_of_hasNode hsel (h.ends_selected e he).1 (h.coherent.ends e he).1,
    h.mem_of_hasNode hsel (h.ends_selected e he).2 (h.coherent.ends e he).2⟩

theorem orderly (h : p.IsMade sel) (hsel : sel.Sound) :
    p.forest.Orderly sel p.history where
  selected := h.trees_selected
  positions := h.coherent.positions
  ids_nodup := h.coherent.nodup_ids
  edges_nodup := h.coherent.nodup.of_map
  ends _ he := h.ends hsel he
  nodeOrder := by rw [h.alike.trees, Forest.ids_replay]
  edgeOrder := by
    rw [h.alike.edges]
    exact Forest.inOrder_replay p.history

theorem removes (h : p.IsMade sel) (hsel : sel.Sound) {e : Edge (AnchoredTree W)}
    (he : e.first ∈ sel.trees ∧ e.second ∈ sel.trees) : p.forest.Removes e := by
  have hkey {d : Edge (AnchoredTree W)} (hd : d ∈ p.forest.edges) : d.key = e.key ↔ d = e :=
    ⟨Edge.eq_of_key_eq hsel (h.ends_selected d hd) he, fun heq => heq ▸ rfl⟩
  have hresult := h.coherent.removeEdge_eq e
  refine ⟨?_, by rw [hresult], fun d => ?_⟩
  · rw [hresult, Forest.hasEdge_iff, List.mem_map]
    exact ⟨fun ⟨d, hd, heq⟩ => (hkey hd).1 heq ▸ hd, fun hmem => ⟨e, hmem, rfl⟩⟩
  · rw [hresult, List.mem_filter, decide_eq_true_eq]
    exact and_congr_right fun hd => not_congr (hkey hd)

end Plot.IsMade

namespace Grammar

/--
Whatever is done to forests over the trees for an input: each knows the places of its
nodes, has no node and no edge twice and no edge without its ends, and keeps both in order.
An addition tells whether it changed the forest, and a removal takes away the given edge
alone and tells whether it was there.  What is done to one forest changes no other.
-/
theorem orderly_of_reachable [One W] [Mul W] (g : Grammar W) (input : List String)
    {grove : Grove W} (h : grove.Reachable (g.parse input)) :
    (∀ p ∈ grove, p.forest.Orderly (g.select input) p.history ∧
      (∀ t, (p.forest.addNode t).1 = true ↔ (p.forest.addNode t).2 ≠ p.forest) ∧
      (∀ e, (p.forest.addEdge e).1 = true ↔ (p.forest.addEdge e).2 ≠ p.forest) ∧
      ∀ e, e.first ∈ (g.select input).trees → e.second ∈ (g.select input).trees →
        p.forest.Removes e) ∧
    ∀ k grove', Grove.Next (g.parse input) k grove grove' →
      ∀ j < grove.length, j ≠ k → grove'[j]? = grove[j]? := by
  have hsel := g.sound_select input
  have hinv := (g.reached_parse input).inv hsel
  refine ⟨fun p hp => ?_, fun k grove' hnext j hj hne => hnext.getElem?_of_ne hj hne⟩
  have hmade := h.isMade hinv p hp
  exact ⟨hmade.orderly hsel, p.forest.addNode_changes_iff, p.forest.addEdge_changes_iff,
    fun e hfirst hsecond => hmade.removes hsel ⟨hfirst, hsecond⟩⟩

/-- A packed forest, and a copy of it that loses its edge. -/
theorem orderly_big_dog :
    ∃ grove : Grove Nat, grove.Reachable (adjectives.parse ["big", "dog"]) ∧
      ∃ p ∈ grove, ∃ q ∈ grove, p.forest.edges.length = 1 ∧ q.forest.edges = [] ∧
        p.forest.Orderly (adjectives.select ["big", "dog"]) p.history ∧
          q.forest.Orderly (adjectives.select ["big", "dog"]) q.history := by
  have hlength : ((adjectives.parse ["big", "dog"]).packedForest :
      Forest Nat Unit).edges.length = 1 := by decide +kernel
  obtain ⟨e, he⟩ := List.length_eq_one_iff.1 hlength
  have hinv := (adjectives.reached_parse ["big", "dog"]).inv (adjectives.sound_select _)
  let p : Plot Nat := ⟨Unit, (adjectives.parse ["big", "dog"]).packedForest,
    (adjectives.parse ["big", "dog"]).packing⟩
  have hcut : (Change.cut e).Selected (adjectives.parse ["big", "dog"]).selection := by
    have hpacked :=
      Chart.comprises_packedForest (H := Unit) (adjectives.sound_select ["big", "dog"]) hinv
    exact hinv.selection ▸ hpacked.ends_selected ((hpacked.edges e).1 (by simp [he]))
  have hone : Grove.Reachable (adjectives.parse ["big", "dog"]) [p] :=
    .single ⟨_, .pack (g := []) Unit⟩
  have htwo : Grove.Reachable (adjectives.parse ["big", "dog"]) [p, p] :=
    hone.tail ⟨_, .copy List.mem_cons_self⟩
  have hreachable : Grove.Reachable (adjectives.parse ["big", "dog"]) [p, p.change (.cut e)] :=
    htwo.tail ⟨1, .change (k := 1) rfl hcut⟩
  have horderly := (orderly_of_reachable adjectives _ hreachable).1
  refine ⟨_, hreachable, p, by simp, p.change (.cut e), by simp, hlength, ?_,
    (horderly p (by simp)).1, (horderly _ (by simp)).1⟩
  simp [p, Plot.change, Forest.change, Forest.removeEdge, he]

end Grammar

end TreeInsertion
