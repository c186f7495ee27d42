import TreeInsertion.Chart.Basic
import TreeInsertion.Forest.Basic

/-!
# Packed forests

The packed forest of a chart holds all analyses at once: the edges of all
derivations that an accepted item goes back to.  Every item is visited once.
-/

namespace TreeInsertion

namespace Chart

variable {W H : Type}

def edgeOf? (c : Chart W) (why : Derivation) : Option (Edge (AnchoredTree W)) :=
  match why with
  | .substitution parent child => do
      let p ← c.items[parent]?
      let q ← c.items[child]?
      return ⟨p.tree, q.tree, p.nextAddress, .substitution⟩
  | .adjunction host auxiliary => do
      let h ← c.items[host]?
      let a ← c.items[auxiliary]?
      let spine ← a.tree.rule.spine
      return ⟨h.tree, a.tree, spine, .adjunction h.current.address⟩
  | _ => none

def derivationsOf (c : Chart W) (id : Nat) : List Derivation :=
  match c.items[id]? with
  | some x => x.derivations
  | none => []

def antecedentsOf (c : Chart W) (id : Nat) : List Nat :=
  (c.derivationsOf id).flatMap Derivation.antecedents

def addEdgesOf (c : Chart W) (f : Forest W H) (id : Nat) : Forest W H :=
  ((c.derivationsOf id).filterMap c.edgeOf?).foldl (fun g e => (g.addEdge e).2) f

theorem length_flatMap_erase {α β : Type} [DecidableEq α] (f : α → List β) {a : α} {as : List α}
    (h : a ∈ as) : ((as.erase a).flatMap f).length + (f a).length = (as.flatMap f).length := by
  have hlength := ((List.perm_cons_erase h).flatMap_right f).length_eq
  rw [hlength, List.flatMap_cons, List.length_append, Nat.add_comm]

/--
Add the edges of all items that those on the stack go back to.

The items in `fresh` are not visited yet.  A visit takes an item off the stack and
puts its antecedents there, the last one on top, so that every step lessens the
antecedents to come.
-/
def collect (c : Chart W) (fresh stack : List Nat) (f : Forest W H) : Forest W H :=
  match stack with
  | [] => f
  | id :: rest =>
      if _hfresh : id ∈ fresh then
        c.collect (fresh.erase id) ((c.antecedentsOf id).reverse ++ rest) (c.addEdgesOf f id)
      else c.collect fresh rest f
termination_by stack.length + (fresh.flatMap c.antecedentsOf).length
decreasing_by
  · have := length_flatMap_erase c.antecedentsOf _hfresh
    simp only [List.length_append, List.length_reverse, List.length_cons]
    omega
  · simp only [List.length_cons]
    omega

/-- The forest of all analyses of the input. -/
def packedForest (c : Chart W) : Forest W H :=
  let roots := c.accepting.foldl (fun f x => (f.addNode x.tree).2) Forest.empty
  c.collect (List.range c.items.size) (c.accepting.map Item.id).reverse roots

end Chart

end TreeInsertion
