import TreeInsertion.Proofs.Chart.Filing

/-!
# How a chart grows

An action leaves every item in its place with at least the derivations that it
had, and what an action has done stays done.
-/

namespace TreeInsertion

namespace Chart

variable {W : Type}

/-- Whether the chart holds the item, with whatever derivations. -/
def Has (c : Chart W) (x : Item W) : Prop :=
  ∃ ds, c.items[x.id]? = some { x with derivations := ds }

theorem Filed.has_of_mem {c : Chart W} (h : c.Filed) {x : Item W} (hx : x ∈ c.items) : c.Has x :=
  ⟨x.derivations, h.getElem?_id hx⟩

theorem Has.exists_mem {c : Chart W} {x : Item W} (h : c.Has x) :
    ∃ ds, { x with derivations := ds } ∈ c.items := by
  obtain ⟨ds, hx⟩ := h
  exact ⟨ds, Array.mem_of_getElem? hx⟩

/-- What does not depend on the derivations holds of an item if it holds in the chart. -/
theorem Has.of_forall_mem {c : Chart W} {x : Item W} (h : c.Has x) {P : Item W → Prop}
    (hP : ∀ y id derivations, P y → P { y with id := id, derivations := derivations })
    (hmem : ∀ y ∈ c.items, P y) : P x := by
  obtain ⟨ds, hx⟩ := h.exists_mem
  exact hP { x with derivations := ds } x.id x.derivations (hmem _ hx)

def Records (c : Chart W) (cell : Item.Key) (why : Derivation) : Prop :=
  ∃ x ∈ c.items, x.key = cell ∧ why ∈ x.derivations

/-! ## Extensions -/

structure Extends (c c' : Chart W) : Prop where
  selection : c'.selection = c.selection
  starts : c'.starts = c.starts
  size : c'.sets.size = c.sets.size
  items : ∀ {i : Nat} {x : Item W}, c.items[i]? = some x →
    ∃ ds, c'.items[i]? = some { x with derivations := ds } ∧ x.derivations <+: ds
  idsAt : ∀ k, c.idsAt k <+: c'.idsAt k
  demands : c.demands <+: c'.demands

namespace Extends

variable {c c' c'' : Chart W}

theorem refl (c : Chart W) : c.Extends c :=
  ⟨rfl, rfl, rfl, fun h => ⟨_, h, List.prefix_rfl⟩, fun _ => List.prefix_rfl, List.prefix_rfl⟩

theorem trans (h : c.Extends c') (h' : c'.Extends c'') : c.Extends c'' where
  selection := h'.selection.trans h.selection
  starts := h'.starts.trans h.starts
  size := h'.size.trans h.size
  items hx := by
    obtain ⟨ds, hds, hprefix⟩ := h.items hx
    obtain ⟨ds', hds', hprefix'⟩ := h'.items hds
    exact ⟨ds', hds', hprefix.trans hprefix'⟩
  idsAt k := (h.idsAt k).trans (h'.idsAt k)
  demands := h.demands.trans h'.demands

theorem has (h : c.Extends c') {x : Item W} (hx : c.Has x) : c'.Has x := by
  obtain ⟨ds, hds⟩ := hx
  obtain ⟨ds', hds', -⟩ := h.items hds
  exact ⟨ds', hds'⟩

/-- An item whose number was given before has been there itself. -/
theorem has_of_lt_size (h : c.Extends c') {x : Item W} (hx : c'.Has x)
    (hlt : x.id < c.items.size) : c.Has x := by
  obtain ⟨ds', hds'⟩ := hx
  obtain ⟨ds, hds, -⟩ := h.items (Array.getElem?_eq_getElem hlt)
  rw [hds, Option.some.injEq] at hds'
  refine ⟨c.items[x.id].derivations, ?_⟩
  rw [Array.getElem?_eq_getElem hlt, Option.some.injEq]
  exact congrArg (fun y : Item W => { y with derivations := c.items[x.id].derivations }) hds'

theorem records (h : c.Extends c') {cell : Item.Key} {why : Derivation}
    (hrecords : c.Records cell why) : c'.Records cell why := by
  obtain ⟨x, hx, hkey, hwhy⟩ := hrecords
  obtain ⟨i, hi⟩ := Array.getElem?_of_mem hx
  obtain ⟨ds, hds, hprefix⟩ := h.items hi
  exact ⟨_, Array.mem_of_getElem? hds, hkey, hprefix.subset hwhy⟩

theorem mem_demands (h : c.Extends c') {d : Demand W} (hd : d ∈ c.demands) : d ∈ c'.demands :=
  h.demands.subset hd

end Extends

/-! ## The effect of an action -/

def Shows (c : Chart W) : Action W → Prop
  | .add x why => c.Records x.key why
  | .note d => d ∈ c.demands

theorem Extends.shows {c c' : Chart W} (h : c.Extends c') {a : Action W} (ha : c.Shows a) :
    c'.Shows a := by
  cases a with
  | add x why => exact h.records ha
  | note d => exact h.mem_demands ha

/-- Whether the action concerns the position `k`, or the next one if it adds an item. -/
def Action.At (k : Nat) : Action W → Prop
  | .add x _ => x.right = k ∨ x.right = k + 1
  | .note d => d.pos = k

/-- Whether nothing but the positions `k` and `k + 1` differs. -/
structure GrowsAt (k : Nat) (c c' : Chart W) : Prop where
  idsAt : ∀ {j : Nat}, j ≠ k → j ≠ k + 1 → c'.idsAt j = c.idsAt j
  demands : ∀ d ∈ c'.demands, d ∈ c.demands ∨ d.pos = k

namespace GrowsAt

variable {k : Nat} {c c' c'' : Chart W}

theorem refl (k : Nat) (c : Chart W) : GrowsAt k c c :=
  ⟨fun _ _ => rfl, fun _ => Or.inl⟩

theorem trans (h : GrowsAt k c c') (h' : GrowsAt k c' c'') : GrowsAt k c c'' where
  idsAt hk hk' := (h'.idsAt hk hk').trans (h.idsAt hk hk')
  demands d hd := (h'.demands d hd).elim (h.demands d) Or.inr

end GrowsAt

section Add

variable {c : Chart W} {x : Item W}

theorem extends_add (hright : x.right < c.sets.size) (why : Derivation) :
    c.Extends (c.add x why) := by
  cases hindex : c.index[x.key]? with
  | some i =>
      rw [add_of_taken hindex]
      refine ⟨rfl, rfl, rfl, ?_, fun _ => List.prefix_rfl, List.prefix_rfl⟩
      intro j y hy
      rw [getElem?_modify_derive, hy]
      by_cases hij : i = j
      · exact ⟨_, by rw [Option.map_some, if_pos hij, y.derive_eq], y.prefix_derive why⟩
      · exact ⟨_, by rw [Option.map_some, if_neg hij], List.prefix_rfl⟩
  | none =>
      rw [add_of_free hindex]
      refine ⟨rfl, rfl, by simp, ?_, ?_, List.prefix_rfl⟩
      · intro j y hy
        have hlt := (Array.getElem?_eq_some_iff.1 hy).1
        refine ⟨y.derivations, ?_, List.prefix_rfl⟩
        rw [Array.getElem?_push, if_neg (Nat.ne_of_lt hlt), hy]
      · intro k
        rw [idsAt_push hright]
        exact List.prefix_append _ _

theorem growsAt_add {k : Nat} (hright : x.right < c.sets.size) (hk : x.right = k ∨ x.right = k + 1)
    (why : Derivation) : GrowsAt k c (c.add x why) := by
  cases hindex : c.index[x.key]? with
  | some i =>
      rw [add_of_taken hindex]
      exact ⟨fun _ _ => rfl, fun _ => Or.inl⟩
  | none =>
      rw [add_of_free hindex]
      refine ⟨?_, fun _ => Or.inl⟩
      intro j hj hj'
      rw [idsAt_push hright, if_neg (by omega), List.append_nil]

theorem demands_add (c : Chart W) (x : Item W) (why : Derivation) :
    (c.add x why).demands = c.demands := by
  unfold add
  split <;> rfl

theorem Filed.records_add (h : c.Filed) (why : Derivation) :
    (c.add x why).Records x.key why := by
  cases hindex : c.index[x.key]? with
  | some i =>
      rw [add_of_taken hindex]
      obtain ⟨y, hy, hkey⟩ := h.index.1 hindex
      refine ⟨y.derive why, ?_, by rw [y.key_derive, hkey], Item.mem_derive.2 (Or.inr rfl)⟩
      refine Array.mem_of_getElem? (i := i) ?_
      rw [getElem?_modify_derive, hy, Option.map_some, if_pos rfl]
  | none =>
      rw [add_of_free hindex]
      exact ⟨_, Array.mem_push_self, rfl, List.mem_singleton_self why⟩

/-- The items are the old ones, of which one may have the new derivation, and the new one. -/
theorem Filed.mem_add (h : c.Filed) {why : Derivation} {y : Item W}
    (hy : y ∈ (c.add x why).items) :
    y ∈ c.items ∨ (∃ z ∈ c.items, z.key = x.key ∧ y = z.derive why) ∨
      y = { x with id := c.items.size, derivations := [why] } := by
  cases hindex : c.index[x.key]? with
  | some i =>
      rw [add_of_taken hindex] at hy
      obtain ⟨j, hj⟩ := Array.getElem?_of_mem hy
      rw [getElem?_modify_derive] at hj
      obtain ⟨z, hz, rfl⟩ := Option.map_eq_some_iff.1 hj
      by_cases hij : i = j
      · subst hij
        obtain ⟨z', hz', hkey⟩ := h.index.1 hindex
        rw [hz] at hz'
        cases hz'
        exact Or.inr (Or.inl ⟨z, Array.mem_of_getElem? hz, hkey, if_pos rfl⟩)
      · rw [if_neg hij]
        exact Or.inl (Array.mem_of_getElem? hz)
  | none =>
      rw [add_of_free hindex] at hy
      rcases Array.mem_push.1 hy with hold | hnew
      · exact Or.inl hold
      · exact Or.inr (Or.inr hnew)

/-- What depends neither on numbers nor on derivations stays true of all items. -/
theorem Filed.forall_mem_add (h : c.Filed) (why : Derivation) {P : Item W → Prop}
    (hP : ∀ y id derivations, P y → P { y with id := id, derivations := derivations })
    (hmem : ∀ y ∈ c.items, P y) (hx : P x) : ∀ y ∈ (c.add x why).items, P y := by
  intro y hy
  rcases h.mem_add hy with hold | ⟨z, hz, -, rfl⟩ | rfl
  · exact hmem y hold
  · rw [z.derive_eq]
    exact hP z z.id _ (hmem z hz)
  · exact hP x _ _ hx

end Add

/-! ## Any action -/

def Action.Fits (c : Chart W) : Action W → Prop
  | .add x _ => x.right < c.sets.size
  | .note _ => True

section Apply

variable {c : Chart W} {a : Action W}

theorem extends_apply (ha : a.Fits c) : c.Extends (c.apply a) := by
  cases a with
  | add x why => exact extends_add ha why
  | note d =>
      exact ⟨rfl, rfl, rfl, fun hx => ⟨_, hx, List.prefix_rfl⟩, fun _ => List.prefix_rfl,
        List.prefix_append _ _⟩

theorem growsAt_apply {k : Nat} (ha : a.Fits c) (hk : a.At k) : GrowsAt k c (c.apply a) := by
  cases a with
  | add x why => exact growsAt_add ha hk why
  | note d =>
      refine ⟨fun _ _ => rfl, ?_⟩
      intro d' hd'
      rcases List.mem_append.1 hd' with hold | hnew
      · exact Or.inl hold
      · rw [List.mem_singleton.1 hnew]
        exact Or.inr hk

theorem Filed.apply (h : c.Filed) (ha : a.Fits c) : (c.apply a).Filed := by
  cases a with
  | add x why => exact h.add ha why
  | note d => exact ⟨h.id_eq, h.index, h.sets, h.sorted⟩

theorem Filed.shows_apply (h : c.Filed) : (c.apply a).Shows a := by
  cases a with
  | add x why => exact h.records_add why
  | note d => exact List.mem_append_right _ (List.mem_singleton_self d)

end Apply

end Chart

end TreeInsertion
