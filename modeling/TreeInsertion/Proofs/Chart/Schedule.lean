import Mathlib.Data.List.Perm.Subperm
import Mathlib.Data.List.ProdSigma
import Mathlib.Tactic.Ring
import TreeInsertion.Proofs.Chart.Log

/-!
# The order of processing

A chart never holds more items than there are cells, so every item at a position has
its turn before the analysis moves on.  Hence a property of the chart and of the
place in its schedule holds in the end if every turn preserves it.
-/

namespace TreeInsertion

namespace Selection

variable {W : Type}

/-! ## The number of cells -/

def dots (sel : Selection W) : List (Nat × Nat × Nat) :=
  sel.trees.flatMap fun t => t.rule.layers.zipIdx.flatMap fun (l, i) =>
    (List.range l.length).map fun d => (t.id, i, d + 1)

theorem length_dots (sel : Selection W) : sel.dots.length = sel.dotCount := by
  have hlayers (t : AnchoredTree W) : (t.rule.layers.zipIdx.map fun p => p.1.length) =
      t.rule.layers.map fun l => l.entries.length := by
    conv_rhs => rw [← List.zipIdx_map_fst 0 t.rule.layers, List.map_map]
    rfl
  simp [dots, dotCount, List.length_flatMap, hlayers]

def spans (n : Nat) : List (Nat × Nat) :=
  (List.range (n + 1)).flatMap fun right =>
    (List.range (right + 1)).map fun left => (left, right)

theorem length_spans (n : Nat) : (spans n).length * 2 = (n + 1) * (n + 2) := by
  induction n with
  | zero => rfl
  | succ n ih =>
      rw [spans, List.range_succ, List.flatMap_append, List.length_append, ← spans, Nat.add_mul,
        ih]
      simp
      ring

theorem mem_spans {n left right : Nat} :
    (left, right) ∈ spans n ↔ left ≤ right ∧ right ≤ n := by
  simp [spans]
  omega

def cells (sel : Selection W) (n : Nat) : List Item.Key :=
  (sel.dots ×ˢ (spans n ×ˢ [false, true])).map fun ((t, l, d), (left, right), adjoined) =>
    ⟨t, l, d, left, right, adjoined⟩

theorem length_cells (sel : Selection W) (n : Nat) :
    (sel.cells n).length = (n + 1) * (n + 2) * sel.dotCount := by
  rw [cells, List.length_map, List.length_product, List.length_product, length_dots,
    ← length_spans, Nat.mul_comm]
  rfl

theorem key_mem_cells {sel : Selection W} {n : Nat} {x : Item W} (hx : x.Valid sel n) :
    x.key ∈ sel.cells n := by
  have hdot : (x.tree.id, x.layer.val, x.dot) ∈ sel.dots := by
    refine List.mem_flatMap.2 ⟨x.tree, hx.tree, ?_⟩
    refine List.mem_flatMap.2 ⟨(x.current, x.layer.val), ?_, ?_⟩
    · exact List.mem_zipIdx_iff_getElem?.2 (List.getElem?_eq_getElem _)
    · refine List.mem_map.2 ⟨x.dot - 1, ?_, ?_⟩
      · have hpos := hx.dot_pos
        have hle := hx.dot_le
        rw [List.mem_range]
        omega
      · rw [Nat.sub_add_cancel hx.dot_pos]
  refine List.mem_map.2
    ⟨((x.tree.id, x.layer.val, x.dot), (x.left, x.right), x.leftAdjoined), ?_, rfl⟩
  refine List.pair_mem_product.2 ⟨hdot, List.pair_mem_product.2 ⟨?_, by simp⟩⟩
  exact mem_spans.2 ⟨hx.left_le, hx.right_le⟩

end Selection

namespace Chart

variable {W : Type}

section Bound

variable {sel : Selection W} {starts : SymbolSet} {n : Nat} {c : Chart W}

theorem Inv.capacity_eq (h : c.Inv sel starts n) :
    c.capacity = (n + 1) * (n + 2) * sel.dotCount := by
  rw [capacity, inputLength, h.size, h.selection, Nat.add_sub_cancel]

theorem Filed.map_id (h : c.Filed) : c.items.toList.map Item.id = List.range c.items.size := by
  apply List.ext_getElem?
  intro i
  rw [List.getElem?_map, Array.getElem?_toList]
  cases hx : c.items[i]? with
  | none =>
      have hle := Array.getElem?_eq_none_iff.1 hx
      simp [hle]
  | some x =>
      have hlt := (Array.getElem?_eq_some_iff.1 hx).1
      rw [Option.map_some, h.id_eq hx, List.getElem?_range hlt]

theorem Filed.nodup_keys (h : c.Filed) : (c.items.toList.map Item.key).Nodup := by
  have hnodup : c.items.toList.Nodup := List.Nodup.of_map Item.id (h.map_id ▸ List.nodup_range)
  refine hnodup.map_on ?_
  intro x hx y hy hkey
  exact h.eq_of_key_eq (Array.mem_toList_iff.1 hx) (Array.mem_toList_iff.1 hy) hkey

/-- A chart has no more items than cells. -/
theorem Inv.size_items_le (h : c.Inv sel starts n) : c.items.size ≤ c.capacity := by
  have hsubset : c.items.toList.map Item.key ⊆ sel.cells n := by
    intro key hkey
    obtain ⟨x, hx, rfl⟩ := List.mem_map.1 hkey
    exact Selection.key_mem_cells (h.valid x (Array.mem_toList_iff.1 hx))
  have hle := (h.filed.nodup_keys.subperm hsubset).length_le
  rw [h.capacity_eq, ← sel.length_cells]
  simpa using hle

theorem Filed.length_idsAt_le (h : c.Filed) (k : Nat) : (c.idsAt k).length ≤ c.items.size := by
  have hsubset : c.idsAt k ⊆ List.range c.items.size := fun i hi =>
    List.mem_range.2 (h.lt_size_of_mem_idsAt hi)
  have hnodup : (c.idsAt k).Nodup := (h.sorted k).imp Nat.ne_of_lt
  simpa using (hnodup.subperm hsubset).length_le

theorem Filed.length_le_of_turn (h : c.Filed) {k i : Nat} (hturn : c.turn k i = none) :
    (c.idsAt k).length ≤ i := by
  refine Nat.not_lt.1 fun hlt => ?_
  obtain ⟨x, hx, -⟩ := h.sets.1 (List.getElem_mem hlt)
  simp [turn, hlt, hx] at hturn

end Bound

/-! ## Induction along the schedule -/

section Schedule

variable [One W] [Mul W] {sel : Selection W} {starts : SymbolSet} {input : List String}

/-- What every turn preserves holds when the items at a position have all been processed. -/
theorem processFrom_induction (hsel : sel.Sound) {k : Nat} {P : Nat → Chart W → Prop}
    (hturn : ∀ i c x, Reached sel starts input c → c.turn k i = some x → P i c →
      P (i + 1) (c.process input x))
    (rounds : Nat) {i : Nat} {c : Chart W} (hc : Reached sel starts input c)
    (hi : i ≤ (c.idsAt k).length) (hrounds : c.capacity ≤ rounds + i) (hP : P i c) :
    Reached sel starts input (processFrom input k rounds i c) ∧
      P ((processFrom input k rounds i c).idsAt k).length (processFrom input k rounds i c) := by
  have hinv := hc.inv hsel
  have hbound : (c.idsAt k).length ≤ c.capacity :=
    Nat.le_trans (hinv.filed.length_idsAt_le k) hinv.size_items_le
  induction rounds generalizing i c with
  | zero =>
      have heq : i = (c.idsAt k).length := by omega
      exact ⟨hc, heq ▸ hP⟩
  | succ rounds ih =>
      cases hx : c.turn k i with
      | none =>
          have hle := hinv.filed.length_le_of_turn hx
          have heq : i = (c.idsAt k).length := by omega
          rw [(processFrom_of_none hx _).1]
          exact ⟨hc, heq ▸ hP⟩
      | some x =>
          obtain ⟨hhas, -, -, hplace⟩ := hinv.filed.of_turn hx
          have hlt := (List.getElem?_eq_some_iff.1 hplace).1
          have hstep := (progress_process hsel hc hhas).1
          have hinv' := hstep.reached.inv hsel
          have hgrow := (hstep.extension.idsAt k).length_le
          have hcapacity : (c.process input x).capacity = c.capacity := by
            rw [hinv'.capacity_eq, hinv.capacity_eq]
          rw [(processFrom_of_some hx _).1]
          refine ih hstep.reached (by omega) (by omega) (hturn i c x hc hx hP) hinv' ?_
          exact Nat.le_trans (hinv'.filed.length_idsAt_le k) hinv'.size_items_le

theorem reached_seeded (hsel : sel.Sound) :
    Reached sel starts input (seeded sel starts input.length) := by
  rw [seeded_eq_foldl_run]
  exact (progress_foldl_run hsel .empty (phaseLicensed_of_mem_starts hsel _ _)).1.reached

/--
Induction along an analysis: a property of a position, a place there and the chart holds
in the end if it holds of the seeded chart and is kept by every turn and by every move to
the next position.
-/
theorem ofSelection_induction (hsel : sel.Sound) {P : Nat → Nat → Chart W → Prop}
    (hstart : P 0 0 (seeded sel starts input.length))
    (hturn : ∀ k i c x, Reached sel starts input c → c.turn k i = some x → P k i c →
      P k (i + 1) (c.process input x))
    (hnext : ∀ k c, Reached sel starts input c → P k (c.idsAt k).length c → P (k + 1) 0 c) :
    P (input.length + 1) 0 (ofSelection sel starts input) := by
  have hsets (m : Nat) :
      Reached sel starts input
          ((List.range m).foldl (processSet input) (seeded sel starts input.length)) ∧
        P m 0 ((List.range m).foldl (processSet input) (seeded sel starts input.length)) := by
    induction m with
    | zero => exact ⟨reached_seeded hsel, hstart⟩
    | succ m ih =>
        rw [List.range_succ, List.foldl_append, List.foldl_cons, List.foldl_nil]
        obtain ⟨hc, hP⟩ := ih
        have hset := processFrom_induction hsel (hturn m) _ hc
          (Nat.zero_le _) (Nat.le_refl _) hP
        exact ⟨hset.1, hnext m _ hset.1 hset.2⟩
  exact (hsets (input.length + 1)).2

/-! ## Items that had their turn -/

/-- Whether the item had its turn when place `i` of position `k` comes up. -/
def Done (k i : Nat) (c : Chart W) (x : Item W) : Prop :=
  c.Has x ∧ (x.right < k ∨ x.right = k ∧ x.id ∈ (c.idsAt k).take i)

omit [One W] [Mul W] in
theorem not_done_zero {c : Chart W} {x : Item W} : ¬ Done 0 0 c x := by
  rintro ⟨-, hlt | ⟨-, hmem⟩⟩
  · exact absurd hlt (Nat.not_lt_zero _)
  · simp at hmem

omit [One W] [Mul W] in
theorem Done.right_le {k i : Nat} {c : Chart W} {x : Item W} (h : Done k i c x) : x.right ≤ k := by
  rcases h.2 with hlt | ⟨heq, -⟩
  · exact Nat.le_of_lt hlt
  · exact Nat.le_of_eq heq

omit [One W] [Mul W] in
theorem Done.of_next {k : Nat} {c : Chart W} (hc : c.Filed) {x : Item W} (h : Done (k + 1) 0 c x) :
    Done k (c.idsAt k).length c x := by
  obtain ⟨hx, hlt | ⟨-, hmem⟩⟩ := h
  · refine ⟨hx, ?_⟩
    rcases Nat.lt_or_eq_of_le (Nat.le_of_lt_succ hlt) with hlt | heq
    · exact Or.inl hlt
    · obtain ⟨ds, hds⟩ := hx
      refine Or.inr ⟨heq, ?_⟩
      rw [List.take_length]
      exact hc.sets.2 ⟨_, hds, heq⟩
  · simp at hmem

/-- After a turn, the items that had theirs are those of before and the one of this turn. -/
theorem Done.of_turn (hsel : sel.Sound) {k i : Nat} {c : Chart W} {x y : Item W}
    (hc : Reached sel starts input c) (hturn : c.turn k i = some x)
    (h : Done k (i + 1) (c.process input x) y) :
    Done k i c y ∨ ∃ ds, { y with derivations := ds } = x := by
  have hfiled := (hc.inv hsel).filed
  obtain ⟨hhas, hmem, rfl, hplace⟩ := hfiled.of_turn hturn
  have hstep := (progress_process hsel hc hhas).1
  obtain ⟨hy, hlt | ⟨heq, hid⟩⟩ := h
  · refine Or.inl ⟨?_, Or.inl hlt⟩
    obtain ⟨ds, hds⟩ := hy
    have hid := (hstep.reached.inv hsel).filed.sets.2 ⟨_, hds, rfl⟩
    rw [hstep.growth.idsAt (Nat.ne_of_lt hlt) (by omega)] at hid
    exact hstep.extension.has_of_lt_size ⟨ds, hds⟩ (hfiled.lt_size_of_mem_idsAt hid)
  · have hlength := (List.getElem?_eq_some_iff.1 hplace).1
    obtain ⟨rest, hrest⟩ := hstep.extension.idsAt x.right
    rw [← hrest, List.take_append_of_le_length hlength] at hid
    have hy' := hstep.extension.has_of_lt_size hy
      (hfiled.lt_size_of_mem_idsAt (List.mem_of_mem_take hid))
    rw [List.take_add_one, hplace, List.mem_append] at hid
    rcases hid with hold | hnew
    · exact Or.inl ⟨hy', Or.inr ⟨heq, hold⟩⟩
    · obtain ⟨ds, hds⟩ := hy'
      have hsame : y.id = x.id := by simpa using hnew
      have hx := hfiled.getElem?_id hmem
      rw [← hsame, hds] at hx
      exact Or.inr ⟨ds, Option.some.inj hx⟩

end Schedule

end Chart

end TreeInsertion
