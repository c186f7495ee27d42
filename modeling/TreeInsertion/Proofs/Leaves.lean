import Mathlib.Algebra.Order.BigOperators.Group.List
import Mathlib.Algebra.Order.Ring.Nat
import TreeInsertion.Proofs.Spine

/-!
# The leaves of an elementary tree

The check of a rule follows the one path from the root to the foot.  That path takes the
first or the last entry of every layer exactly if the foot is the first or the last of
all leaves.  So a rule passes the check exactly if its layers form one tree whose foot,
which an initial tree lacks, is at one end of the leaves but not at both.
-/

namespace TreeInsertion

/-- The end of a list on the side where an auxiliary tree has its foot. -/
def Side.outermost {α : Type} : Side → List α → Option α
  | .left, xs => xs.getLast?
  | .right, xs => xs.head?

theorem Side.forall_iff {p : Side → Prop} : (∀ side, p side) ↔ p .left ∧ p .right :=
  ⟨fun h => ⟨h _, h _⟩, fun h side => side.casesOn h.1 h.2⟩

theorem Side.exists_only_iff {p : Side → Prop} :
    (∃ side, ∀ other, p other ↔ other = side) ↔ Xor (p .right) (p .left) := by
  constructor
  · rintro ⟨side, hside⟩
    cases side with
    | left => exact Or.inr ⟨(hside .left).2 rfl, fun h => nomatch (hside .right).1 h⟩
    | right => exact Or.inl ⟨(hside .right).2 rfl, fun h => nomatch (hside .left).1 h⟩
  · rintro (⟨hright, hleft⟩ | ⟨hleft, hright⟩)
    · exact ⟨.right, Side.forall_iff.2 (by simp [hright, hleft])⟩
    · exact ⟨.left, Side.forall_iff.2 (by simp [hright, hleft])⟩

theorem Side.mem_of_outermost {α : Type} {side : Side} {xs : List α} {a : α}
    (h : side.outermost xs = some a) : a ∈ xs := by
  cases side with
  | left => exact List.mem_of_getLast? h
  | right => exact List.mem_of_head? h

theorem Side.outermost_flatMap {α : Type} (side : Side) {f : Nat → List α}
    (hf : ∀ i, f i ≠ []) {l : Layer} (hl : l.rhs ≠ []) :
    side.outermost ((List.range' 1 l.rhs.length).flatMap f) = side.outermost (f (side.edge l)) := by
  have hlength : l.rhs.length = l.length - 1 := List.length_drop
  obtain ⟨n, hn⟩ := Nat.exists_eq_succ_of_ne_zero (List.length_pos_iff.2 hl).ne'
  cases side with
  | left =>
      rw [hn, List.range'_1_concat, List.flatMap_append, List.flatMap_singleton, outermost,
        List.getLast?_append_of_ne_nil _ (hf _), edge, outermost]
      congr 2
      omega
  | right =>
      rw [hn, List.range'_succ, List.flatMap_cons, outermost, List.head?_append_of_ne_nil _ (hf _)]
      rfl

namespace Rule

variable {W : Type} {r : Rule W}

theorem length_le_of_layer? {g : Address} {l : Layer} (h : r.layer? g = some l) :
    g.length ≤ (r.layers.map fun l => l.address.length).sum := by
  obtain ⟨hmem, rfl⟩ := mem_of_layer? h
  exact List.le_sum_of_mem (List.mem_map_of_mem (f := fun l => l.address.length) hmem)

/--
The leaves at or below a node from left to right.  An entry without a layer of its own is a
leaf, and so is a layer without children.
-/
def leavesAt (r : Rule W) (g : Address) : List Address :=
  match _hlayer : r.layer? g with
  | none => [g]
  | some l =>
      if l.rhs = [] then [g]
      else (List.range' 1 l.rhs.length).flatMap fun i => r.leavesAt (g.child i)
termination_by (r.layers.map fun l => l.address.length).sum + 1 - g.length
decreasing_by
  have hle := length_le_of_layer? _hlayer
  simp only [Address.child, Address.length, List.length_append, List.length_singleton] at hle ⊢
  omega

def leaves (r : Rule W) : List Address :=
  r.leavesAt Address.root

theorem leavesAt_of_none {g : Address} (h : r.layer? g = none) : r.leavesAt g = [g] := by
  rw [leavesAt]
  split
  · rfl
  · simp_all

theorem leavesAt_of_layer? {g : Address} {l : Layer} (h : r.layer? g = some l) :
    r.leavesAt g = if l.rhs = [] then [g]
      else (List.range' 1 l.rhs.length).flatMap fun i => r.leavesAt (g.child i) := by
  rw [leavesAt]
  split
  · simp_all
  · rename_i m hm
    cases h.symm.trans hm
    rfl

theorem leavesAt_ne_nil (g : Address) : r.leavesAt g ≠ [] := by
  induction g using leavesAt.induct r with
  | case1 g hlayer => simp [leavesAt_of_none hlayer]
  | case2 g l hlayer hrhs => simp [leavesAt_of_layer? hlayer, hrhs]
  | case3 g l hlayer hrhs ih =>
      have hpos : 0 < l.rhs.length := List.length_pos_iff.2 hrhs
      rw [leavesAt_of_layer? hlayer, if_neg hrhs, Ne, List.flatMap_eq_nil_iff]
      exact fun hnil => ih 1 (hnil 1 (by simp; omega))

theorem prefix_of_mem_leavesAt {g h : Address} (hmem : h ∈ r.leavesAt g) : g.path <+: h.path := by
  induction g using leavesAt.induct r with
  | case1 g hlayer => simp_all [leavesAt_of_none hlayer]
  | case2 g l hlayer hrhs => simp_all [leavesAt_of_layer? hlayer]
  | case3 g l hlayer hrhs ih =>
      rw [leavesAt_of_layer? hlayer, if_neg hrhs] at hmem
      obtain ⟨i, -, hmem⟩ := List.mem_flatMap.1 hmem
      exact (List.prefix_append _ _).trans (ih i hmem)

/-- The outermost leaf below a layer lies below the entry at that edge of the layer. -/
theorem outermost_leavesAt_iff (side : Side) {g : Address} {l : Layer}
    (hlayer : r.layer? g = some l) {i : Nat} (hpos : 1 ≤ i) (hlt : i < l.length)
    (rest : List Nat) :
    side.outermost (r.leavesAt g) = some ⟨g.path ++ i :: rest⟩ ↔
      i = side.edge l ∧
        side.outermost (r.leavesAt (g.child i)) = some ⟨(g.child i).path ++ rest⟩ := by
  have hrhs : l.rhs ≠ [] := by
    have hlength : l.rhs.length = l.length - 1 := List.length_drop
    exact List.ne_nil_of_length_pos (by omega)
  have hpath : (g.child i).path ++ rest = g.path ++ i :: rest := by simp [Address.child]
  rw [leavesAt_of_layer? hlayer, if_neg hrhs, side.outermost_flatMap (fun _ => leavesAt_ne_nil _)
    hrhs, hpath]
  constructor
  · intro h
    have hprefix := prefix_of_mem_leavesAt (side.mem_of_outermost h)
    have hedge : side.edge l = i := by
      simpa [Address.child] using hprefix
    exact ⟨hedge.symm, hedge ▸ h⟩
  · rintro ⟨rfl, h⟩
    exact h

/-- Whether all steps of a descent take the edge for the side. -/
def keptBy (flags : Bool × Bool) : Side → Bool
  | .left => flags.2
  | .right => flags.1

theorem keptBy_step (side : Side) {l : Layer} (hl : 0 < l.length) (i : Nat) (flags : Bool × Bool) :
    keptBy (i == 1 && flags.1, isLastStep l i && flags.2) side = true ↔
      i = side.edge l ∧ keptBy flags side = true := by
  cases side with
  | left => simp only [keptBy, Bool.and_eq_true, isLastStep_iff hl, Side.edge]
  | right => simp only [keptBy, Bool.and_eq_true, beq_iff_eq, Side.edge]

/-- A descent to a leaf of a tree finds out on which sides that leaf is the outermost one. -/
theorem descend_spec {below above : List Nat} {l : Layer} {i : Nat}
    (hsteps : ∀ before k rest, below = before ++ k :: rest →
      ∃ m, r.layer? ⟨above ++ before⟩ = some m ∧ 1 ≤ k ∧ k < m.length)
    (hlayer : r.layer? ⟨above ++ below⟩ = some l) (hpos : 1 ≤ i) (hlt : i < l.length)
    (hleaf : r.layer? ⟨above ++ (below ++ [i])⟩ = none) :
    ∃ flags, r.descend above below = .ok flags ∧ ∀ side : Side,
      side.outermost (r.leavesAt ⟨above⟩) = some ⟨above ++ (below ++ [i])⟩ ↔
        i = side.edge l ∧ keptBy flags side = true := by
  induction below generalizing above with
  | nil =>
      rw [List.append_nil] at hlayer
      have hchild : r.leavesAt (Address.child ⟨above⟩ i) = [⟨above ++ [i]⟩] :=
        leavesAt_of_none hleaf
      refine ⟨(true, true), rfl, fun side => ?_⟩
      rw [List.nil_append, outermost_leavesAt_iff side hlayer hpos hlt [], hchild]
      cases side <;> simp [Side.outermost, Address.child, keptBy]
  | cons k below ih =>
      obtain ⟨m, hm, hk, hkm⟩ := hsteps [] k below rfl
      rw [List.append_nil] at hm
      have hsteps' : ∀ before k' rest, below = before ++ k' :: rest →
          ∃ m, r.layer? ⟨above ++ [k] ++ before⟩ = some m ∧ 1 ≤ k' ∧ k' < m.length := by
        intro before k' rest hbelow
        rw [List.append_assoc, List.singleton_append]
        exact hsteps (k :: before) k' rest (by rw [hbelow, List.cons_append])
      obtain ⟨flags, hflags, hiff⟩ := ih hsteps' (by simpa using hlayer) (by simpa using hleaf)
      refine ⟨(k == 1 && flags.1, isLastStep m k && flags.2), ?_, fun side => ?_⟩
      · rw [descend, hm]
        simp only [hflags, bind, Except.bind, pure, Except.pure]
      · rw [List.cons_append, outermost_leavesAt_iff side hm hk hkm, keptBy_step side (by omega),
          and_left_comm, ← hiff side]
        rfl

theorem IsTree.layer?_foot (h : r.IsTree) {l : Layer} (hl : l ∈ r.layers) {i : Nat} {label : String}
    (hentry : l.entry? i = some ⟨.foot, label⟩) : r.layer? (l.address.child i) = none := by
  cases hlayer : r.layer? (l.address.child i) with
  | none => rfl
  | some m =>
      obtain ⟨hm, haddress⟩ := mem_of_layer? hlayer
      obtain ⟨-, -, e, -, hsite⟩ := h.site_of_child hl hm haddress
      simp_all

/-- The layers down to the foot are all there, so the check gets to the foot. -/
theorem IsTree.descend_foot (h : r.IsTree) {l : Layer} {i : Nat} (hfoot : r.HasFoot l i) :
    ∃ flags, r.descend (l.address.path.take 1) (l.address.path.drop 1) = .ok flags ∧
      ∀ side : Side, side.outermost r.leaves = some (l.address.child i) ↔
        i = side.edge l ∧ keptBy flags side = true := by
  obtain ⟨label, -, hentry⟩ := hfoot.entry
  obtain ⟨below, hbelow⟩ := h.root_prefix hfoot.mem
  have hpath : l.address.path = 0 :: below := hbelow.symm
  have hsteps : ∀ before k rest, below = before ++ k :: rest →
      ∃ m, r.layer? ⟨[0] ++ before⟩ = some m ∧ 1 ≤ k ∧ k < m.length := by
    intro before k rest hrest
    have hsplit : l.address.path = (0 :: before) ++ k :: rest := by
      rw [hpath, hrest, List.cons_append]
    obtain ⟨m, hm, haddress, hk, hkm⟩ :=
      h.exists_layer_above hfoot.mem hsplit (List.cons_ne_nil 0 before)
    refine ⟨m, ?_, hk, hkm⟩
    rw [show (⟨[0] ++ before⟩ : Address) = m.address from congrArg Address.mk haddress.symm]
    exact h.layer?_address hm
  have hlayer : r.layer? ⟨[0] ++ below⟩ = some l := by
    rw [show (⟨[0] ++ below⟩ : Address) = l.address from congrArg Address.mk hpath.symm]
    exact h.layer?_address hfoot.mem
  have hchild : (⟨[0] ++ (below ++ [i])⟩ : Address) = l.address.child i := by
    rw [Address.child, hpath]
    rfl
  obtain ⟨flags, hflags, hiff⟩ := descend_spec hsteps hlayer hfoot.pos
    (Layer.lt_length_of_entry? hentry) (hchild ▸ h.layer?_foot hfoot.mem hentry)
  rw [hchild] at hiff
  refine ⟨flags, ?_, hiff⟩
  rw [hpath]
  exact hflags

/-- The side that the check finds is the one where the foot is the outermost leaf. -/
theorem IsTree.sideOfFoot_eq_ok_iff (h : r.IsTree) {l : Layer} {i : Nat} (hfoot : r.HasFoot l i)
    (side : Side) : r.sideOfFoot l.address l i = .ok side ↔
      ∀ other : Side, other.outermost r.leaves = some (l.address.child i) ↔ other = side := by
  obtain ⟨flags, hdescend, hiff⟩ := h.descend_foot hfoot
  obtain ⟨label, -, hentry⟩ := hfoot.entry
  have hlt := Layer.lt_length_of_entry? hentry
  have hfirst : (i == 1 && flags.1) = true ↔
      Side.right.outermost r.leaves = some (l.address.child i) := by
    rw [hiff, Bool.and_eq_true, beq_iff_eq]
    rfl
  have hlast : (i + 1 == l.length && flags.2) = true ↔
      Side.left.outermost r.leaves = some (l.address.child i) := by
    have hedge : i + 1 = l.length ↔ i = Side.left.edge l := by
      rw [Side.edge]
      omega
    rw [hiff, Bool.and_eq_true, beq_iff_eq, hedge]
    rfl
  rw [sideOfFoot, hdescend]
  simp only [bind, Except.bind, Side.forall_iff, ← hfirst, ← hlast]
  cases i == 1 && flags.1 <;> cases i + 1 == l.length && flags.2 <;> cases side <;>
    simp [pure, Except.pure, throw, throwThe, MonadExceptOf.throw]

theorem IsTree.spineSide_eq_some_iff (h : r.IsTree) {side : Side} :
    r.spineSide = .ok (some side) ↔ ∃ l i, r.HasFoot l i ∧
      ∀ other : Side, other.outermost r.leaves = some (l.address.child i) ↔ other = side := by
  rw [Rule.spineSide_eq_some_iff]
  constructor
  · rintro ⟨l, i, hfoot, hside⟩
    exact ⟨l, i, hfoot, (h.sideOfFoot_eq_ok_iff hfoot side).1 hside⟩
  · rintro ⟨l, i, hfoot, honly⟩
    exact ⟨l, i, hfoot, (h.sideOfFoot_eq_ok_iff hfoot side).2 honly⟩

/-- The foot of a tree with a spine is at one end of the leaves but not at both. -/
def HasOuterFoot (r : Rule W) : Prop :=
  ∃ l i, r.HasFoot l i ∧ Xor (r.leaves.head? = some (l.address.child i))
    (r.leaves.getLast? = some (l.address.child i))

theorem IsTree.exists_side_iff (h : r.IsTree) :
    (∃ side, r.spineSide = .ok (some side)) ↔ r.HasOuterFoot := by
  constructor
  · rintro ⟨side, hside⟩
    obtain ⟨l, i, hfoot, honly⟩ := h.spineSide_eq_some_iff.1 hside
    exact ⟨l, i, hfoot, Side.exists_only_iff.1 ⟨side, honly⟩⟩
  · rintro ⟨l, i, hfoot, houter⟩
    obtain ⟨side, honly⟩ := Side.exists_only_iff
      (p := fun side => side.outermost r.leaves = some (l.address.child i)).2 houter
    exact ⟨side, h.spineSide_eq_some_iff.2 ⟨l, i, hfoot, honly⟩⟩

/--
A rule is well formed exactly if its layers form one tree that has no spine and no foot or
one foot, on the spine and at one end of the leaves.  The side is the end where the foot is.
-/
theorem wellFormed_iff (r : Rule W) :
    (r.WellFormed ↔ r.IsTree ∧ ((r.spine = none ∧ r.footCount = 0) ∨ r.HasOuterFoot)) ∧
    (r.WellFormed → (r.spine = none → r.side? = none) ∧
      ∀ l ∈ r.layers, ∀ i label, 1 ≤ i → l.entry? i = some ⟨.foot, label⟩ →
        (r.leaves.head? = some (l.address.child i) → r.side? = some .right) ∧
        (r.leaves.getLast? = some (l.address.child i) → r.side? = some .left)) := by
  constructor
  · rw [wellFormed_iff_checked]
    constructor
    · intro h
      refine ⟨h.isTree, ?_⟩
      obtain ⟨side?, hside⟩ := h.side
      cases side? with
      | none => exact Or.inl (spineSide_eq_none_iff.1 hside)
      | some side => exact Or.inr (h.isTree.exists_side_iff.1 ⟨side, hside⟩)
    · rintro ⟨h, hinitial | houter⟩
      · exact h.checked (spineSide_eq_none_iff.2 hinitial)
      · obtain ⟨side, hside⟩ := h.exists_side_iff.2 houter
        exact h.checked hside
  · intro hwell
    have h := hwell.checked
    constructor
    · intro hspine
      cases hside : r.side? with
      | none => rfl
      | some side =>
          obtain ⟨l, i, hfoot, -⟩ := Rule.spineSide_eq_some_iff.1 (side?_eq_some_iff.1 hside)
          cases hspine.symm.trans hfoot.spine
    · intro l hl i label hpos hentry
      have hmem : (l, i, ⟨.foot, label⟩) ∈ r.feet := mem_feet.2 ⟨hl, hpos, hentry, rfl⟩
      rcases h.isInitial_or_exists_side with hinitial | ⟨side, hside⟩
      · exact absurd hentry (h.entry?_ne_foot hinitial hl hpos label)
      · obtain ⟨m, j, hfoot, honly⟩ := h.isTree.spineSide_eq_some_iff.1 (side?_eq_some_iff.1 hside)
        obtain ⟨label', -, hfeet⟩ := hfoot.feet_eq
        rw [hfeet, List.mem_singleton] at hmem
        cases hmem
        rw [hside]
        exact ⟨fun hfirst => congrArg some ((honly .right).1 hfirst).symm,
          fun hlast => congrArg some ((honly .left).1 hlast).symm⟩

def adjectiveBefore : Rule Unit :=
  ⟨0, [⟨⟨[0]⟩, [⟨.nonterminal, "N"⟩, ⟨.nonterminal, "ADJ"⟩, ⟨.nonterminal, "N"⟩]⟩,
    ⟨⟨[0, 2]⟩, [⟨.nonterminal, "N"⟩, ⟨.foot, "N"⟩]⟩,
    ⟨⟨[0, 1]⟩, [⟨.nonterminal, "ADJ"⟩, ⟨.terminal, "big"⟩]⟩], ["big"], 1, (), some ⟨[0, 2]⟩⟩

theorem adjectiveBefore_wellFormed : adjectiveBefore.IsTree ∧ adjectiveBefore.HasOuterFoot ∧
    adjectiveBefore.leaves = [⟨[0, 1, 1]⟩, ⟨[0, 2, 1]⟩] ∧
    adjectiveBefore.side? = some .left := by
  have hwell : adjectiveBefore.WellFormed := by decide
  have hleaves : adjectiveBefore.leaves = [⟨[0, 1, 1]⟩, ⟨[0, 2, 1]⟩] := by
    have hadjective : adjectiveBefore.leavesAt ⟨[0, 1]⟩ = [⟨[0, 1, 1]⟩] := by
      rw [leavesAt_of_layer? rfl, if_neg (by decide)]
      exact (List.append_nil _).trans (leavesAt_of_none rfl)
    have hnoun : adjectiveBefore.leavesAt ⟨[0, 2]⟩ = [⟨[0, 2, 1]⟩] := by
      rw [leavesAt_of_layer? rfl, if_neg (by decide)]
      exact (List.append_nil _).trans (leavesAt_of_none rfl)
    rw [leaves, leavesAt_of_layer? rfl, if_neg (by decide)]
    exact congrArg₂ (fun first last => first ++ (last ++ [])) hadjective hnoun
  obtain ⟨htree, hspine | houter⟩ := (wellFormed_iff adjectiveBefore).1.1 hwell
  · cases hspine.1
  · have hside := ((wellFormed_iff adjectiveBefore).2 hwell).2 _
      (List.mem_cons_of_mem _ List.mem_cons_self) 1 "N" le_rfl rfl
    exact ⟨htree, houter, hleaves, hside.2 (by rw [hleaves]; rfl)⟩

end Rule

end TreeInsertion
