import Mathlib.Data.List.Basic
import TreeInsertion.Chart.Basic
import TreeInsertion.Proofs.Rule

/-!
# How a chart files its items

The number of an item is its place, a cell holds one item, and the set of a
position lists the items that end there in the order of their numbers.  Actions
keep this, and change an item only by adding derivations.
-/

namespace TreeInsertion

namespace Item

variable {W : Type}

theorem current_mem (x : Item W) : x.current ∈ x.tree.rule.layers :=
  List.getElem_mem _

theorem isActive_iff {x : Item W} : x.isActive = true ↔ x.dot < x.current.length := by
  simp [isActive]

theorem isPassive_iff {x : Item W} : x.isPassive = true ↔ x.current.length ≤ x.dot := by
  simp [isPassive, isActive]

theorem isRootLayer_iff {x : Item W} :
    x.isRootLayer = true ↔ x.current.address = Address.root := by
  simp [isRootLayer]

theorem isActive_of_next? {x : Item W} {e : Entry} (h : x.next? = some e) :
    x.isActive = true :=
  isActive_iff.2 (Layer.lt_length_of_entry? h)

theorem mem_derive {x : Item W} {why other : Derivation} :
    other ∈ (x.derive why).derivations ↔ other ∈ x.derivations ∨ other = why := by
  unfold derive
  split
  · rename_i hmem
    constructor
    · exact Or.inl
    · rintro (h | rfl)
      · exact h
      · exact hmem
  · simp

theorem prefix_derive (x : Item W) (why : Derivation) :
    x.derivations <+: (x.derive why).derivations := by
  unfold derive
  split <;> simp

theorem derive_eq (x : Item W) (why : Derivation) :
    x.derive why = { x with derivations := (x.derive why).derivations } := by
  unfold derive
  split <;> rfl

theorem key_derive (x : Item W) (why : Derivation) : (x.derive why).key = x.key := by
  rw [derive_eq]
  rfl

theorem right_derive (x : Item W) (why : Derivation) : (x.derive why).right = x.right := by
  rw [derive_eq]

theorem id_derive (x : Item W) (why : Derivation) : (x.derive why).id = x.id := by
  rw [derive_eq]

end Item

namespace Chart

variable {W : Type}

/-! ## The filing -/

structure Filed (c : Chart W) : Prop where
  id_eq : ∀ {i : Nat} {x : Item W}, c.items[i]? = some x → x.id = i
  index : ∀ {key : Item.Key} {i : Nat},
    c.index[key]? = some i ↔ ∃ x, c.items[i]? = some x ∧ x.key = key
  sets : ∀ {k i : Nat}, i ∈ c.idsAt k ↔ ∃ x, c.items[i]? = some x ∧ x.right = k
  sorted : ∀ k, (c.idsAt k).Pairwise (· < ·)

theorem filed_empty (selection : Selection W) (starts : SymbolSet) (n : Nat) :
    (empty selection starts n).Filed := by
  have hids (k : Nat) : (empty selection starts n).idsAt k = [] := by
    by_cases h : k < n + 1 <;> simp [empty, idsAt, h]
  refine ⟨by simp [empty], by simp [empty], ?_, by simp [hids]⟩
  intro k i
  rw [hids]
  simp [empty]

theorem mem_items_of_mem_accepting {c : Chart W} {x : Item W} (hx : x ∈ c.accepting) :
    x ∈ c.items :=
  Array.mem_toList_iff.1 (List.mem_of_mem_filter hx)

namespace Filed

variable {c : Chart W}

theorem getElem?_id (h : c.Filed) {x : Item W} (hx : x ∈ c.items) : c.items[x.id]? = some x := by
  obtain ⟨i, hi⟩ := Array.getElem?_of_mem hx
  rw [h.id_eq hi, hi]

theorem id_lt_size (h : c.Filed) {x : Item W} (hx : x ∈ c.items) : x.id < c.items.size :=
  (Array.getElem?_eq_some_iff.1 (h.getElem?_id hx)).1

theorem eq_of_key_eq (h : c.Filed) {x y : Item W} (hx : x ∈ c.items) (hy : y ∈ c.items)
    (heq : x.key = y.key) : x = y := by
  have hidx := h.index.2 ⟨x, h.getElem?_id hx, heq⟩
  have hidy := h.index.2 ⟨y, h.getElem?_id hy, rfl⟩
  have hid : x.id = y.id := Option.some.inj (hidx.symm.trans hidy)
  have hget := h.getElem?_id hx
  rw [hid, h.getElem?_id hy] at hget
  exact (Option.some.inj hget).symm

theorem mem_itemsAt (h : c.Filed) {k : Nat} {x : Item W} :
    x ∈ c.itemsAt k ↔ x ∈ c.items ∧ x.right = k := by
  unfold itemsAt
  rw [List.mem_filterMap]
  constructor
  · rintro ⟨i, hi, hx⟩
    obtain ⟨y, hy, hright⟩ := h.sets.1 hi
    rw [hx] at hy
    cases hy
    exact ⟨Array.mem_of_getElem? hx, hright⟩
  · rintro ⟨hx, hright⟩
    exact ⟨x.id, h.sets.2 ⟨x, h.getElem?_id hx, hright⟩, h.getElem?_id hx⟩

theorem find?_eq_some_iff (h : c.Filed) {key : Item.Key} {x : Item W} :
    c.find? key = some x ↔ x ∈ c.items ∧ x.key = key := by
  unfold find?
  rw [Option.bind_eq_some_iff]
  constructor
  · rintro ⟨i, hi, hx⟩
    obtain ⟨y, hy, hkey⟩ := h.index.1 hi
    rw [hx] at hy
    cases hy
    exact ⟨Array.mem_of_getElem? hx, hkey⟩
  · rintro ⟨hx, hkey⟩
    exact ⟨x.id, h.index.2 ⟨x, h.getElem?_id hx, hkey⟩, h.getElem?_id hx⟩

end Filed

/-! ## Adding an item -/

theorem add_of_taken {c : Chart W} {x : Item W} {i : Nat} (h : c.index[x.key]? = some i)
    (why : Derivation) :
    c.add x why = { c with items := c.items.modify i fun y => y.derive why } := by
  simp [add, h]

theorem add_of_free {c : Chart W} {x : Item W} (h : c.index[x.key]? = none) (why : Derivation) :
    c.add x why = { c with
      items := c.items.push { x with id := c.items.size, derivations := [why] }
      sets := c.sets.modify x.right fun ids => ids.push c.items.size
      index := c.index.insert x.key c.items.size } := by
  simp [add, h]

theorem getElem?_modify_derive (items : Array (Item W)) (i j : Nat) (why : Derivation) :
    (items.modify i fun y => y.derive why)[j]? =
      items[j]?.map fun y => if i = j then y.derive why else y := by
  rw [Array.getElem?_modify]
  by_cases h : i = j <;> simp [h]

/-- What the items of a chart share with the items that have more derivations. -/
theorem exists_getElem?_modify_derive {items : Array (Item W)} {i j : Nat} {why : Derivation}
    {P : Item W → Prop} (hP : ∀ y : Item W, P (y.derive why) ↔ P y) :
    (∃ y, (items.modify i fun y => y.derive why)[j]? = some y ∧ P y) ↔
      ∃ y, items[j]? = some y ∧ P y := by
  rw [getElem?_modify_derive]
  cases items[j]? with
  | none => simp
  | some y => by_cases h : i = j <;> simp [h, hP]

theorem Filed.add_taken {c : Chart W} (h : c.Filed) (i : Nat) (why : Derivation) :
    ({ c with items := c.items.modify i fun y => y.derive why } : Chart W).Filed where
  id_eq := by
    intro j y hy
    rw [getElem?_modify_derive] at hy
    obtain ⟨z, hz, rfl⟩ := Option.map_eq_some_iff.1 hy
    by_cases hij : i = j <;> simp [hij, z.id_derive, h.id_eq hz]
  index := by
    intro key j
    rw [exists_getElem?_modify_derive fun y => by rw [y.key_derive]]
    exact h.index
  sets := by
    intro k j
    rw [exists_getElem?_modify_derive fun y => by rw [y.right_derive]]
    exact h.sets
  sorted := h.sorted

/-- The item that a free cell receives comes last. -/
theorem exists_getElem?_push {items : Array (Item W)} {x : Item W} {j : Nat}
    {P : Item W → Prop} :
    (∃ y, (items.push x)[j]? = some y ∧ P y) ↔
      (∃ y, items[j]? = some y ∧ P y) ∨ j = items.size ∧ P x := by
  rw [Array.getElem?_push]
  split
  · rename_i hj
    simp [hj]
  · rename_i hj
    simp [hj]

theorem idsAt_push {c : Chart W} {right id : Nat} (hright : right < c.sets.size)
    (items : Array (Item W)) (index : Std.TreeMap Item.Key Nat) (k : Nat) :
    ({ c with
      items := items
      sets := c.sets.modify right fun ids => ids.push id
      index := index } : Chart W).idsAt k =
        c.idsAt k ++ if right = k then [id] else [] := by
  unfold idsAt
  simp only [Array.getElem?_modify]
  by_cases hk : right = k
  · subst hk
    simp [hright]
  · cases c.sets[k]? <;> simp [hk]

theorem Filed.lt_size_of_mem_idsAt {c : Chart W} (h : c.Filed) {k i : Nat} (hi : i ∈ c.idsAt k) :
    i < c.items.size := by
  obtain ⟨x, hx, -⟩ := h.sets.1 hi
  exact (Array.getElem?_eq_some_iff.1 hx).1

theorem Filed.add_free {c : Chart W} (h : c.Filed) {x : Item W}
    (hfree : c.index[x.key]? = none) (hright : x.right < c.sets.size) (why : Derivation) :
    ({ c with
      items := c.items.push { x with id := c.items.size, derivations := [why] }
      sets := c.sets.modify x.right fun ids => ids.push c.items.size
      index := c.index.insert x.key c.items.size } : Chart W).Filed where
  id_eq := by
    intro j y hy
    rw [Array.getElem?_push] at hy
    split at hy
    · cases hy
      exact Eq.symm ‹_›
    · exact h.id_eq hy
  index := by
    intro key j
    rw [exists_getElem?_push, ← h.index, Std.TreeMap.getElem?_insert]
    by_cases hkey : x.key = key
    · -- the cell was free, so nothing but the new item is in it
      subst hkey
      have hnew : ({ x with id := c.items.size, derivations := [why] } : Item W).key = x.key := rfl
      rw [if_pos Std.ReflCmp.compare_self, hfree, hnew]
      simp [eq_comm (a := j)]
    · have hne : ¬ compare x.key key = .eq := fun heq => hkey (Std.LawfulEqOrd.eq_of_compare heq)
      have hnew : ¬ ({ x with id := c.items.size, derivations := [why] } : Item W).key = key := hkey
      simp [hne, hnew]
  sets := by
    intro k j
    rw [idsAt_push hright, exists_getElem?_push, ← h.sets, List.mem_append]
    by_cases hk : x.right = k <;> simp [hk]
  sorted := by
    intro k
    rw [idsAt_push hright, List.pairwise_append]
    refine ⟨h.sorted k, by split <;> simp, ?_⟩
    intro i hi j hj
    have hlt := h.lt_size_of_mem_idsAt hi
    split at hj <;> simp_all

/-- Adding an item with its right end in the input keeps the filing. -/
theorem Filed.add {c : Chart W} (h : c.Filed) {x : Item W} (hright : x.right < c.sets.size)
    (why : Derivation) : (c.add x why).Filed := by
  cases hindex : c.index[x.key]? with
  | some i =>
      rw [add_of_taken hindex]
      exact h.add_taken i why
  | none =>
      rw [add_of_free hindex]
      exact h.add_free hindex hright why

end Chart

end TreeInsertion
