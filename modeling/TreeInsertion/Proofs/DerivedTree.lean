import Mathlib.Data.List.ReduceOption

/-!
# Derived trees

What comes of elementary trees that have been put together.  The tree of an auxiliary
tree still has a foot, where the whole subtree of its host goes.
-/

namespace TreeInsertion

inductive DerivedTree where
  | word (w : String)
  | foot
  | node (label : String) (children : List DerivedTree)

namespace DerivedTree

mutual

def leaves : DerivedTree → List (Option String)
  | .word w => [some w]
  | .foot => [none]
  | .node _ children => leavesAll children

def leavesAll : List DerivedTree → List (Option String)
  | [] => []
  | T :: Ts => leaves T ++ leavesAll Ts

end

mutual

/-- A tree with the host in the place of its foot. -/
def plugInto (host : DerivedTree) : DerivedTree → DerivedTree
  | .word w => .word w
  | .foot => host
  | .node label children => .node label (plugIntoAll host children)

def plugIntoAll (host : DerivedTree) : List DerivedTree → List DerivedTree
  | [] => []
  | T :: Ts => plugInto host T :: plugIntoAll host Ts

end

def words (T : DerivedTree) : List String :=
  T.leaves.reduceOption

/-- Whether the tree has no foot. -/
def IsComplete (T : DerivedTree) : Prop :=
  none ∉ T.leaves

theorem leavesAll_append (Ts Us : List DerivedTree) :
    leavesAll (Ts ++ Us) = leavesAll Ts ++ leavesAll Us := by
  induction Ts with
  | nil => rfl
  | cons T Ts ih => rw [List.cons_append, leavesAll, leavesAll, ih, List.append_assoc]

@[simp] theorem leavesAll_concat (Ts : List DerivedTree) (T : DerivedTree) :
    leavesAll (Ts ++ [T]) = leavesAll Ts ++ T.leaves := by
  simp [leavesAll_append, leavesAll]

def plugLeaf (host : DerivedTree) : Option String → List (Option String)
  | none => host.leaves
  | some w => [some w]

mutual

theorem leaves_plugInto (host : DerivedTree) :
    (T : DerivedTree) → (plugInto host T).leaves = T.leaves.flatMap (plugLeaf host)
  | .word w => rfl
  | .foot => by simp [plugInto, leaves, plugLeaf]
  | .node label children => by rw [plugInto, leaves, leaves, leavesAll_plugIntoAll]

theorem leavesAll_plugIntoAll (host : DerivedTree) :
    (Ts : List DerivedTree) →
      leavesAll (plugIntoAll host Ts) = (leavesAll Ts).flatMap (plugLeaf host)
  | [] => rfl
  | T :: Ts => by
      rw [plugIntoAll, leavesAll, leavesAll, List.flatMap_append, leaves_plugInto,
        leavesAll_plugIntoAll]

end

/-- The words of the upper tree stay as they are. -/
@[simp] theorem flatMap_plugLeaf_words (host : DerivedTree) (ws : List String) :
    (ws.map some).flatMap (plugLeaf host) = ws.map some := by
  induction ws with
  | nil => rfl
  | cons w ws ih => rw [List.map_cons, List.flatMap_cons, ih, plugLeaf, List.singleton_append]

theorem IsComplete.plugInto {host : DerivedTree} (h : host.IsComplete) (T : DerivedTree) :
    (plugInto host T).IsComplete := by
  rw [IsComplete, leaves_plugInto]
  intro hmem
  obtain ⟨leaf, -, hleaf⟩ := List.mem_flatMap.1 hmem
  cases leaf with
  | none => exact h hleaf
  | some w => simp [plugLeaf] at hleaf

theorem words_of_leaves {T : DerivedTree} {ws : List String} (h : T.leaves = ws.map some) :
    T.words = ws := by
  rw [words, h, List.reduceOption, List.filterMap_map]
  exact List.filterMap_some

end DerivedTree

end TreeInsertion
