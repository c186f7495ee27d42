import TreeInsertion.Proofs.Rule

/-!
# Spines

In an auxiliary tree, the way from the root to the foot keeps to one edge of the tree:
it takes the last entry of every layer if the tree stands before its host, and the
first one if it stands behind.
-/

namespace TreeInsertion

/-- The entry at the edge of a layer where the foot has to be. -/
def Side.edge : Side → Layer → Nat
  | .left, l => l.length - 1
  | .right, _ => 1

namespace Rule

variable {W : Type} {r : Rule W}

/-- Whether the layer lies on the way from the root to the foot. -/
def OnSpine (r : Rule W) (l : Layer) : Prop :=
  ∃ g, r.spine = some g ∧ l.address.path <+: g.path

theorem mem_feet {l : Layer} {d : Nat} {e : Entry} :
    (l, d, e) ∈ r.feet ↔ l ∈ r.layers ∧ 1 ≤ d ∧ l.entry? d = some e ∧ e.isFoot = true := by
  simp only [feet, List.mem_flatMap, List.mem_filterMap]
  constructor
  · rintro ⟨l', hl, ⟨e', d'⟩, hmem, hfoot⟩
    split at hfoot
    · rename_i hisFoot
      cases hfoot
      obtain ⟨k, hk⟩ := List.getElem?_of_mem hmem
      rw [List.getElem?_drop, List.getElem?_zipIdx] at hk
      obtain ⟨e', he, heq⟩ := Option.map_eq_some_iff.1 hk
      cases heq
      exact ⟨hl, by omega, by simpa [Layer.entry?] using he, hisFoot⟩
    · cases hfoot
  · rintro ⟨hl, hd, hentry, hfoot⟩
    refine ⟨l, hl, (e, d), ?_, if_pos hfoot⟩
    refine List.mem_of_getElem? (i := d - 1) ?_
    have hsame : 1 + (d - 1) = d := by omega
    rw [List.getElem?_drop, List.getElem?_zipIdx, hsame, show l.entries[d]? = some e from hentry]
    simp

def footCount (r : Rule W) : Nat :=
  (r.layers.flatMap Layer.rhs).countP Entry.isFoot

theorem length_feet : r.feet.length = r.footCount := by
  rw [feet, footCount, List.length_flatMap, List.countP_flatMap]
  congr 2
  funext l
  have hrhs : (l.entries.zipIdx.drop 1).map Prod.fst = l.rhs := by
    rw [List.map_drop, List.zipIdx_map_fst, Layer.rhs]
  rw [Function.comp, ← hrhs, List.countP_map, List.length_filterMap_eq_countP]
  congr 1
  funext e
  cases hfoot : e.1.isFoot <;> simp [hfoot]

/-- The tree has one foot, entry `i` of `l`, in the layer at the spine and labelled as the root. -/
structure HasFoot (r : Rule W) (l : Layer) (i : Nat) : Prop where
  one : r.footCount = 1
  mem : l ∈ r.layers
  spine : r.spine = some l.address
  pos : 1 ≤ i
  entry : ∃ label, r.rootSymbol = .ok label ∧ l.entry? i = some ⟨.foot, label⟩

theorem HasFoot.feet_eq {l : Layer} {i : Nat} (h : r.HasFoot l i) :
    ∃ label, r.rootSymbol = .ok label ∧ r.feet = [(l, i, ⟨.foot, label⟩)] := by
  obtain ⟨label, hroot, hentry⟩ := h.entry
  have hmem : (l, i, ⟨.foot, label⟩) ∈ r.feet := mem_feet.2 ⟨h.mem, h.pos, hentry, rfl⟩
  obtain ⟨foot, hfeet⟩ := List.length_eq_one_iff.1 (length_feet.trans h.one)
  rw [hfeet, List.mem_singleton] at hmem
  exact ⟨label, hroot, hmem ▸ hfeet⟩

theorem side?_eq_some_iff {side : Side} :
    r.side? = some side ↔ r.spineSide = .ok (some side) := by
  unfold side?
  cases r.spineSide <;> simp

theorem spineSide_eq_none_iff :
    r.spineSide = .ok none ↔ r.spine = none ∧ r.footCount = 0 := by
  rw [← length_feet, List.length_eq_zero_iff]
  unfold spineSide
  split
  · simp_all
  · simp_all
  · rename_i hspine hfeet
    repeat' split
    all_goals simp_all
  · simp_all

theorem spineSide_eq_some_iff {side : Side} : r.spineSide = .ok (some side) ↔
    ∃ l i, r.HasFoot l i ∧ r.sideOfFoot l.address l i = .ok side := by
  constructor
  · intro hside
    unfold spineSide at hside
    split at hside
    · cases hside
    · cases hside
    · rename_i g l i foot hspine hfeet
      have hmem : (l, i, foot) ∈ r.feet := hfeet ▸ List.mem_singleton_self _
      obtain ⟨hl, hpos, hentry, hfoot⟩ := mem_feet.1 hmem
      split at hside
      · cases hside
      · rename_i haddress
        obtain rfl := Decidable.not_not.1 haddress
        split at hside
        · cases hside
        · rename_i root hroot
          split at hside
          · cases hside
          · rename_i hlabel
            split at hside
            · cases hside
            · rename_i side' hok
              cases hside
              have hone : r.footCount = 1 := by rw [← length_feet, hfeet, List.length_singleton]
              obtain ⟨role, label⟩ := foot
              obtain rfl : role = .foot := by simpa [Entry.isFoot] using hfoot
              obtain rfl : label = root := Decidable.not_not.1 hlabel
              exact ⟨l, i, ⟨hone, hl, hspine, hpos, label, hroot, hentry⟩, hok⟩
    · cases hside
  · rintro ⟨l, i, hfoot, hside⟩
    obtain ⟨label, hroot, hfeet⟩ := hfoot.feet_eq
    simp [spineSide, hfoot.spine, hfeet, hroot, hside]

theorem exists_foot_of_side? {side : Side} (h : r.side? = some side) :
    ∃ l d e, r.spine = some l.address ∧ r.feet = [(l, d, e)] ∧
      r.sideOfFoot l.address l d = .ok side := by
  obtain ⟨l, i, hfoot, hside⟩ := spineSide_eq_some_iff.1 (side?_eq_some_iff.1 h)
  obtain ⟨label, -, hfeet⟩ := hfoot.feet_eq
  exact ⟨l, i, _, hfoot.spine, hfeet, hside⟩

theorem Checked.entry?_ne_foot (h : r.Checked) (hinitial : r.isInitial = true) {l : Layer}
    (hl : l ∈ r.layers) {d : Nat} (hd : 1 ≤ d) (label : String) :
    l.entry? d ≠ some ⟨.foot, label⟩ := by
  intro hentry
  have hmem : (l, d, ⟨.foot, label⟩) ∈ r.feet := mem_feet.2 ⟨hl, hd, hentry, rfl⟩
  have hspine : r.spine = none := by simpa [isInitial, isAuxiliary] using hinitial
  obtain ⟨side?, hside⟩ := h.side
  cases side? with
  | none =>
      rw [List.length_eq_zero_iff.1 (length_feet.trans (spineSide_eq_none_iff.1 hside).2)] at hmem
      cases hmem
  | some side =>
      obtain ⟨m, i, hfoot, -⟩ := spineSide_eq_some_iff.1 hside
      cases hspine.symm.trans hfoot.spine

/-- The spine of a tree is the address of one of its layers. -/
theorem Checked.exists_layer_of_spine (h : r.Checked) {g : Address} (hspine : r.spine = some g) :
    ∃ l ∈ r.layers, l.address = g := by
  obtain ⟨side?, hside⟩ := h.side
  cases side? with
  | none => cases (spineSide_eq_none_iff.1 hside).1.symm.trans hspine
  | some side =>
      obtain ⟨l, i, hfoot, -⟩ := spineSide_eq_some_iff.1 hside
      exact ⟨l, hfoot.mem, Option.some.inj (hfoot.spine.symm.trans hspine)⟩

/-- Every step of the path leads from a layer, and the flags say at which edge it does so. -/
theorem exists_layer_of_descend {below : List Nat} :
    ∀ {above : List Nat} {first last : Bool}, r.descend above below = .ok (first, last) →
      ∀ {before : List Nat} {k : Nat} {rest : List Nat}, below = before ++ k :: rest →
        ∃ l, r.layer? ⟨above ++ before⟩ = some l ∧ (first = true → k = 1) ∧
          (last = true → isLastStep l k = true) := by
  induction below with
  | nil => simp
  | cons i below ih =>
      intro above first last h before k rest hbelow
      unfold descend at h
      split at h
      · cases h
      · rename_i l hl
        cases hrest : r.descend (above ++ [i]) below with
        | error fault => simp [hrest, bind, Except.bind] at h
        | ok flags =>
            obtain ⟨first', last'⟩ := flags
            simp only [hrest, bind, Except.bind, pure, Except.pure, Except.ok.injEq,
              Prod.mk.injEq] at h
            obtain ⟨rfl, rfl⟩ := h
            cases before with
            | nil =>
                obtain ⟨rfl, rfl⟩ : i = k ∧ below = rest := by simpa using hbelow
                exact ⟨l, by simpa using hl, by simp +contextual, by simp +contextual⟩
            | cons j before =>
                obtain ⟨rfl, htail⟩ : i = j ∧ below = before ++ k :: rest := by
                  simpa using hbelow
                obtain ⟨m, hm, hfirst, hlast⟩ := ih hrest htail
                rw [List.append_assoc, List.singleton_append] at hm
                refine ⟨m, hm, fun h => hfirst ?_, fun h => hlast ?_⟩
                · exact (Bool.and_eq_true_iff.1 h).2
                · exact (Bool.and_eq_true_iff.1 h).2

theorem isLastStep_iff {l : Layer} (hl : 0 < l.length) {k : Nat} :
    isLastStep l k = true ↔ k = l.length - 1 := by
  rw [isLastStep, if_neg (Nat.ne_of_gt hl), beq_iff_eq]
  omega

namespace Checked

theorem length_pos (h : r.Checked) {l : Layer} (hl : l ∈ r.layers) : 0 < l.length := by
  obtain ⟨e, hlhs⟩ := h.exists_lhs hl
  exact Layer.length_pos_of_lhs? hlhs

/-- The foot and all steps to it are at the edge that the side of the tree asks for. -/
theorem edge_of_sideOfFoot (h : r.Checked) {l : Layer} {d : Nat} {side : Side}
    (hside : r.sideOfFoot l.address l d = .ok side) : d = side.edge l ∧
      ∀ before k rest, l.address.path.drop 1 = before ++ k :: rest →
        ∃ m, r.layer? ⟨l.address.path.take 1 ++ before⟩ = some m ∧ k = side.edge m := by
  unfold sideOfFoot at hside
  cases hdescend : r.descend (l.address.path.take 1) (l.address.path.drop 1) with
  | error fault =>
      simp only [hdescend, bind, Except.bind] at hside
      cases hside
  | ok flags =>
      obtain ⟨first, last⟩ := flags
      simp only [hdescend, bind, Except.bind, pure, Except.pure, throw, throwThe,
        MonadExceptOf.throw] at hside
      cases side with
      | right =>
          obtain ⟨rfl, rfl⟩ : d = 1 ∧ first = true := by
            split at hside <;> simp_all
          refine ⟨rfl, fun before k rest hpath => ?_⟩
          obtain ⟨m, hm, hfirst, -⟩ := exists_layer_of_descend hdescend hpath
          exact ⟨m, hm, hfirst rfl⟩
      | left =>
          obtain ⟨hd, rfl⟩ : d + 1 = l.length ∧ last = true := by
            split at hside <;> simp_all
          refine ⟨(Nat.sub_eq_of_eq_add hd.symm).symm, fun before k rest hpath => ?_⟩
          obtain ⟨m, hm, -, hlast⟩ := exists_layer_of_descend hdescend hpath
          exact ⟨m, hm, (isLastStep_iff (h.length_pos (mem_of_layer? hm).1)).1 (hlast rfl)⟩

end Checked

/-- The way from the root to the foot, which is at the edge of each layer for the side. -/
structure HasSpine (r : Rule W) (side : Side) : Prop where
  foot : ∀ l ∈ r.layers, ∀ d label, 1 ≤ d → l.entry? d = some ⟨.foot, label⟩ →
    r.OnSpine l ∧ d = side.edge l
  step : ∀ l ∈ r.layers, r.OnSpine l →
    (1 ≤ side.edge l ∧ ∃ label, l.entry? (side.edge l) = some ⟨.foot, label⟩) ∨
      ∃ m ∈ r.layers, m.address = l.address.child (side.edge l) ∧ r.OnSpine m
  child : ∀ l ∈ r.layers, ∀ m ∈ r.layers, ∀ d, m.address = l.address.child d → r.OnSpine m →
    r.OnSpine l ∧ d = side.edge l

theorem Checked.hasSpine (h : r.Checked) {side : Side} (hside : r.side? = some side) :
    r.HasSpine side := by
  obtain ⟨l, d, e, hspine, hfeet, hside⟩ := exists_foot_of_side? hside
  have hfoot : (l, d, e) ∈ r.feet := hfeet ▸ List.mem_singleton_self _
  obtain ⟨hl, hpos, hentry, hisFoot⟩ := mem_feet.1 hfoot
  obtain ⟨hd, hsteps⟩ := h.edge_of_sideOfFoot hside
  have hlayer : ∀ path k rest, path ≠ [] → l.address.path = path ++ k :: rest →
      ∃ m ∈ r.layers, m.address.path = path ∧ k = side.edge m := by
    intro path k rest hne hpath
    obtain ⟨a, before, rfl⟩ := List.exists_cons_of_ne_nil hne
    obtain ⟨m, hm, hk⟩ := hsteps before k rest (by simp [hpath])
    obtain ⟨hmem, haddress⟩ := mem_of_layer? hm
    exact ⟨m, hmem, by simp [haddress, hpath], hk⟩
  have hedge : ∀ m ∈ r.layers, ∀ k rest, l.address.path = m.address.path ++ k :: rest →
      k = side.edge m := by
    intro m hm k rest hpath
    obtain ⟨m', hm', haddress, hk⟩ := hlayer _ k rest (h.path_ne_nil hm) hpath
    rw [hk, h.eq_of_address_eq hm' hm (congrArg Address.mk haddress)]
  refine ⟨?_, ?_, ?_⟩
  · intro l' hl' d' label hd' hentry'
    have hmem : (l', d', ⟨.foot, label⟩) ∈ r.feet := mem_feet.2 ⟨hl', hd', hentry', rfl⟩
    rw [hfeet, List.mem_singleton] at hmem
    cases hmem
    exact ⟨⟨l.address, hspine, List.prefix_rfl⟩, hd⟩
  · rintro m hm ⟨g, hg, rest, hrest⟩
    rw [hspine] at hg
    cases hg
    cases rest with
    | nil =>
        rw [List.append_nil] at hrest
        cases h.eq_of_address_eq hm hl (congrArg Address.mk hrest)
        obtain ⟨role, label⟩ := e
        have hrole : role = .foot := by simpa [Entry.isFoot] using hisFoot
        exact Or.inl ⟨hd ▸ hpos, label, by rw [← hd, hentry, hrole]⟩
    | cons k rest =>
        rw [← hedge m hm k rest hrest.symm]
        have hnext : l.address.path = (m.address.child k).path ++ rest := by
          simp [Address.child, ← hrest]
        cases rest with
        | nil =>
            rw [List.append_nil] at hnext
            exact Or.inr ⟨l, hl, congrArg Address.mk hnext, l.address, hspine, List.prefix_rfl⟩
        | cons k' rest =>
            obtain ⟨m', hm', haddress, -⟩ := hlayer _ k' rest (by simp [Address.child]) hnext
            refine Or.inr ⟨m', hm', congrArg Address.mk haddress, l.address, hspine, ?_⟩
            rw [haddress, hnext]
            exact List.prefix_append _ _
  · rintro l' hl' m hm k haddress ⟨g, hg, rest, hrest⟩
    rw [hspine] at hg
    cases hg
    have hpath : l.address.path = l'.address.path ++ k :: rest := by
      simp [← hrest, haddress, Address.child]
    refine ⟨⟨l.address, hspine, ?_⟩, hedge l' hl' k rest hpath⟩
    rw [hpath]
    exact List.prefix_append _ _

theorem not_onSpine_of_isInitial (h : r.isInitial = true) (l : Layer) : ¬ r.OnSpine l := by
  rintro ⟨g, hg, -⟩
  simp [isInitial, isAuxiliary, hg] at h

theorem Checked.isInitial_or_exists_side (h : r.Checked) :
    r.isInitial = true ∨ ∃ side, r.side? = some side := by
  obtain ⟨side?, hside⟩ := h.side
  cases side? with
  | none => exact Or.inl (by simp [isInitial, isAuxiliary, (spineSide_eq_none_iff.1 hside).1])
  | some side => exact Or.inr ⟨side, side?_eq_some_iff.2 hside⟩

/-- At the edge of a layer on the spine is the foot or the next node of the spine. -/
theorem HasSpine.entry?_edge {side : Side} (h : r.HasSpine side) (hchecked : r.Checked) {l : Layer}
    (hl : l ∈ r.layers) (hon : r.OnSpine l) :
    (∃ label, l.entry? (side.edge l) = some ⟨.foot, label⟩) ∨
      ∃ label m, l.entry? (side.edge l) = some ⟨.nonterminal, label⟩ ∧
        r.layer? (l.address.child (side.edge l)) = some m ∧ r.OnSpine m := by
  rcases h.step l hl hon with ⟨-, hfoot⟩ | ⟨m, hm, haddress, hon'⟩
  · exact Or.inl hfoot
  · obtain ⟨-, e, -, hentry⟩ := hchecked.site_of_child hl hm haddress
    exact Or.inr ⟨e.label, m, hentry, haddress ▸ hchecked.layer?_address hm, hon'⟩

theorem HasSpine.one_le_edge {side : Side} (h : r.HasSpine side) (hchecked : r.Checked) {l : Layer}
    (hl : l ∈ r.layers) (hon : r.OnSpine l) : 1 ≤ side.edge l := by
  rcases h.step l hl hon with ⟨hpos, -⟩ | ⟨m, hm, haddress, -⟩
  · exact hpos
  · exact hchecked.one_le_of_child hl hm haddress

theorem HasSpine.edge_lt {side : Side} (h : r.HasSpine side) (hchecked : r.Checked) {l : Layer}
    (hl : l ∈ r.layers) (hon : r.OnSpine l) : side.edge l < l.length := by
  rcases h.entry?_edge hchecked hl hon with ⟨label, hentry⟩ | ⟨label, m, hentry, -⟩
  · exact Layer.lt_length_of_entry? hentry
  · exact Layer.lt_length_of_entry? hentry

theorem Checked.onSpine_of_isRoot (h : r.Checked) {side : Side} (hside : r.side? = some side)
    {l : Layer} (hroot : l.address = Address.root) : r.OnSpine l := by
  obtain ⟨m, d, e, hspine, hfeet, -⟩ := exists_foot_of_side? hside
  have hfoot : (m, d, e) ∈ r.feet := hfeet ▸ List.mem_singleton_self _
  exact ⟨m.address, hspine, hroot ▸ h.root_prefix (mem_feet.1 hfoot).1⟩

end Rule

end TreeInsertion
