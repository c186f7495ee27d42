import Mathlib.Data.List.Induction
import Mathlib.Data.List.Nodup
import TreeInsertion.Rule.Validity

/-!
# The shape of well-formed rules

What the check of a rule guarantees: the first layer is the root, an address names
one layer, and every other layer expands a nonterminal of the layer above it.
-/

namespace TreeInsertion

namespace Address

theorem eq_child_of_parent? {g h : Address} {i : Nat}
    (hparent : g.parent? = some h) (hlast : g.last? = some i) : g = h.child i := by
  unfold parent? at hparent
  split at hparent
  · cases hparent
    obtain ⟨init, hpath⟩ := List.getLast?_eq_some_iff.1 hlast
    cases g
    simp_all [child]
  · cases hparent

theorem child_injective {g h : Address} {i j : Nat} (heq : g.child i = h.child j) :
    g = h ∧ i = j := by
  cases g
  cases h
  simpa [child, List.append_inj_left', List.append_eq_append_iff] using
    List.append_inj' (congrArg path heq) rfl

theorem ne_root_of_path {g : Address} {before rest : List Nat} {k : Nat}
    (hpath : g.path = before ++ k :: rest) (hbefore : before ≠ []) : g ≠ root := by
  rintro rfl
  simp_all [root, List.cons_eq_append_iff]

theorem child_ne_root {g : Address} (h : g.path ≠ []) (i : Nat) : g.child i ≠ root := by
  intro heq
  have hlength := congrArg (fun a : Address => a.path.length) heq
  simp [child, root, h] at hlength

end Address

namespace Layer

theorem length_pos_of_lhs? {l : Layer} {e : Entry} (h : l.lhs? = some e) : 0 < l.length := by
  cases hentries : l.entries with
  | nil => simp [lhs?, hentries] at h
  | cons _ _ => simp [length, hentries]

theorem lt_length_of_entry? {l : Layer} {d : Nat} {e : Entry} (h : l.entry? d = some e) :
    d < l.length :=
  (List.getElem?_eq_some_iff.1 h).1

theorem entry?_eq_none_iff {l : Layer} {d : Nat} : l.entry? d = none ↔ l.length ≤ d :=
  List.getElem?_eq_none_iff

theorem getElem?_rhs (l : Layer) (k : Nat) : l.rhs[k]? = l.entry? (1 + k) :=
  List.getElem?_drop

theorem hasLabel_iff {l : Layer} {label : String} :
    l.hasLabel label = true ↔ ∃ e, l.lhs? = some e ∧ e.label = label := by
  simp [hasLabel, Option.any_eq_true]

end Layer

namespace Rule

variable {W : Type} {r : Rule W}

theorem mem_of_layer? {g : Address} {l : Layer} (h : r.layer? g = some l) :
    l ∈ r.layers ∧ l.address = g :=
  ⟨List.mem_of_find?_eq_some h, by simpa using List.find?_some h⟩

theorem address_of_indexOf? {g : Address} {i : Nat} (h : r.indexOf? g = some i) :
    r.layers[(⟨i, lt_length_of_indexOf? h⟩ : Fin r.layers.length)].address = g := by
  simpa using (List.findIdx?_eq_some_iff_getElem.1 h).2.1

theorem indexOf?_eq_none {g : Address} (h : r.indexOf? g = none) : r.layer? g = none :=
  List.find?_eq_none.2 (by simpa [indexOf?, List.findIdx?_eq_none_iff] using h)

theorem isInitial_of_side? {side : Side} (h : r.side? = some side) : r.isInitial = false := by
  cases hspine : r.spine with
  | none =>
      unfold side? spineSide at h
      rw [hspine] at h
      split at h
      · rename_i hside
        split at hside <;> simp_all
      · cases h
  | some g => simp [isInitial, isAuxiliary, hspine]

theorem firstRepeated_eq_none_iff {seen gs : List Address} :
    firstRepeated seen gs = none ↔ gs.Nodup ∧ ∀ g ∈ gs, g ∉ seen := by
  induction gs generalizing seen with
  | nil => simp [firstRepeated]
  | cons g gs ih =>
      unfold firstRepeated
      split
      · simp_all
      · rename_i hg
        rw [ih, List.nodup_cons, List.forall_mem_cons]
        constructor
        · rintro ⟨hnodup, hfresh⟩
          refine ⟨⟨fun hmem => hfresh g hmem List.mem_cons_self, hnodup⟩, hg, ?_⟩
          exact fun g' hg' hmem => hfresh g' hg' (List.mem_cons_of_mem _ hmem)
        · rintro ⟨⟨hnew, hnodup⟩, -, hfresh⟩
          refine ⟨hnodup, fun g' hg' hmem => ?_⟩
          rcases List.mem_cons.1 hmem with rfl | hmem
          · exact hnew hg'
          · exact hfresh g' hg' hmem

theorem forM_eq_ok_iff {f : Layer → Except Defect Unit} {ls : List Layer} :
    ls.forM f = .ok () ↔ ∀ l ∈ ls, f l = .ok () := by
  induction ls with
  | nil => simp [pure, Except.pure]
  | cons l ls ih =>
      rw [show (l :: ls).forM f = (f l >>= fun _ => ls.forM f) from rfl, List.forall_mem_cons,
        ← ih]
      cases hl : f l <;> simp [bind, Except.bind]

theorem siteOf?_eq_some_iff {g : Address} {site : Entry} :
    r.siteOf? g = some site ↔ ∃ h i m, h.path ≠ [] ∧ g = h.child i ∧ r.layer? h = some m ∧
      1 ≤ i ∧ m.entry? i = some site := by
  simp only [siteOf?, Option.bind_eq_bind, Option.bind_eq_some_iff]
  constructor
  · rintro ⟨h, habove, m, hm, i, hi, hentry⟩
    split at hentry
    · rename_i hpos
      obtain rfl := Address.eq_child_of_parent? habove hi
      refine ⟨h, i, m, ?_, rfl, hm, hpos, hentry⟩
      rintro hnil
      simp [Address.parent?, Address.child, hnil] at habove
    · cases hentry
  · rintro ⟨h, i, m, hne, rfl, hm, hpos, hentry⟩
    exact ⟨h, Address.parent?_child i hne, m, hm, i, Address.last?_child h i,
      (if_pos hpos).trans hentry⟩

theorem checkLayer_eq_ok_iff {l : Layer} :
    r.checkLayer l = .ok () ↔ ∃ e, l.lhs? = some e ∧
      (l.address ≠ Address.root → r.siteOf? l.address = some ⟨.nonterminal, e.label⟩) := by
  unfold checkLayer
  cases hlhs : l.lhs? with
  | none => simp
  | some e =>
      by_cases hroot : l.address = Address.root
      · simp [hroot]
      · cases hsite : r.siteOf? l.address with
        | none => simp [hroot]
        | some site =>
            obtain ⟨role, label⟩ := site
            simp [hroot]

/-- The layers form one tree: a root, which comes first, and an expanded nonterminal each. -/
structure IsTree (r : Rule W) : Prop where
  root : ∃ l, r.layers.head? = some l ∧ l.address = Address.root
  nodup : (r.layers.map Layer.address).Nodup
  parent : ∀ l ∈ r.layers, l.entries ≠ []
  /-- Below the root, a layer expands a nonterminal of the layer above it, with the same label. -/
  site : ∀ l ∈ r.layers, l.address ≠ Address.root →
    ∃ m ∈ r.layers, ∃ i, l.address = m.address.child i ∧ 1 ≤ i ∧ i < m.length ∧
      ∃ e, l.lhs? = some e ∧ m.entry? i = some ⟨.nonterminal, e.label⟩

namespace IsTree

theorem eq_of_address_eq (h : r.IsTree) {l m : Layer} (hl : l ∈ r.layers) (hm : m ∈ r.layers)
    (heq : l.address = m.address) : l = m :=
  List.inj_on_of_nodup_map h.nodup hl hm heq

theorem layer?_address (h : r.IsTree) {l : Layer} (hl : l ∈ r.layers) :
    r.layer? l.address = some l := by
  cases hfind : r.layer? l.address with
  | none => simpa using List.find?_eq_none.1 hfind l hl
  | some m =>
      obtain ⟨hm, haddress⟩ := mem_of_layer? hfind
      rw [h.eq_of_address_eq hm hl haddress]

theorem path_ne_nil (h : r.IsTree) {l : Layer} (hl : l ∈ r.layers) : l.address.path ≠ [] := by
  by_cases hroot : l.address = Address.root
  · simp [hroot, Address.root]
  · obtain ⟨m, -, i, hchild, -⟩ := h.site l hl hroot
    simp [hchild, Address.child]

/-- A layer one step below another expands a nonterminal of it. -/
theorem site_of_child (h : r.IsTree) {l m : Layer} (hl : l ∈ r.layers) (hm : m ∈ r.layers)
    {d : Nat} (haddress : m.address = l.address.child d) :
    m.address ≠ Address.root ∧ 1 ≤ d ∧
      ∃ e, m.lhs? = some e ∧ l.entry? d = some ⟨.nonterminal, e.label⟩ := by
  have hroot : m.address ≠ Address.root := by
    rw [haddress]
    exact Address.child_ne_root (h.path_ne_nil hl) d
  obtain ⟨above, habove, i, hchild, hpos, -, e, hlhs, hsite⟩ := h.site m hm hroot
  obtain ⟨hsame, rfl⟩ := Address.child_injective (haddress.symm.trans hchild)
  cases h.eq_of_address_eq hl habove hsame
  exact ⟨hroot, hpos, e, hlhs, hsite⟩

/-- Above a layer, every step of its address leads from the entry of a layer. -/
theorem exists_layer_above (h : r.IsTree) {l : Layer} (hl : l ∈ r.layers) {before : List Nat}
    {k : Nat} {rest : List Nat} (hpath : l.address.path = before ++ k :: rest)
    (hbefore : before ≠ []) :
    ∃ m ∈ r.layers, m.address.path = before ∧ 1 ≤ k ∧ k < m.length := by
  induction rest using List.reverseRecOn generalizing l with
  | nil =>
      obtain ⟨m, hm, i, hchild, hpos, hlt, -⟩ :=
        h.site l hl (Address.ne_root_of_path hpath hbefore)
      rw [hchild, Address.child] at hpath
      obtain ⟨hsame, hi⟩ := List.append_inj' hpath rfl
      cases hi
      exact ⟨m, hm, hsame, hpos, hlt⟩
  | append_singleton rest j ih =>
      obtain ⟨m, hm, i, hchild, -⟩ := h.site l hl (Address.ne_root_of_path hpath hbefore)
      rw [hchild, Address.child, ← List.cons_append, ← List.append_assoc] at hpath
      exact ih hm (List.append_inj_left' hpath rfl)

/-- The root lies above every layer. -/
theorem root_prefix (h : r.IsTree) {l : Layer} (hl : l ∈ r.layers) :
    Address.root.path <+: l.address.path := by
  induction hn : l.address.path.length generalizing l with
  | zero => exact absurd (List.length_eq_zero_iff.1 hn) (h.path_ne_nil hl)
  | succ n ih =>
      by_cases haddress : l.address = Address.root
      · exact haddress ▸ List.prefix_rfl
      · obtain ⟨m, hm, k, hchild, -⟩ := h.site l hl haddress
        have hprefix := ih hm (by simpa [hchild, Address.child] using hn)
        rw [hchild]
        exact hprefix.trans (List.prefix_append _ _)

theorem checkLayer_eq_ok (h : r.IsTree) {l : Layer} (hl : l ∈ r.layers) :
    r.checkLayer l = .ok () := by
  rw [checkLayer_eq_ok_iff]
  by_cases hroot : l.address = Address.root
  · exact ⟨_, List.head?_eq_some_head (h.parent l hl), fun hne => absurd hroot hne⟩
  · obtain ⟨m, hm, i, hchild, hpos, -, e, hlhs, hentry⟩ := h.site l hl hroot
    refine ⟨e, hlhs, fun _ => siteOf?_eq_some_iff.2 ⟨m.address, i, m, h.path_ne_nil hm, hchild,
      h.layer?_address hm, hpos, hentry⟩⟩

end IsTree

structure Checked (r : Rule W) : Prop where
  root : ∃ l, r.layers.head? = some l ∧ l.address = Address.root
  nodup : (r.layers.map Layer.address).Nodup
  layers : ∀ l ∈ r.layers, r.checkLayer l = .ok ()
  side : ∃ side?, r.spineSide = .ok side?

theorem Checked.isTree (h : r.Checked) : r.IsTree where
  root := h.root
  nodup := h.nodup
  parent l hl hnil := by
    obtain ⟨e, hlhs, -⟩ := checkLayer_eq_ok_iff.1 (h.layers l hl)
    simp [Layer.lhs?, hnil] at hlhs
  site l hl hroot := by
    obtain ⟨e, hlhs, hsite⟩ := checkLayer_eq_ok_iff.1 (h.layers l hl)
    obtain ⟨above, i, m, -, hchild, hm, hpos, hentry⟩ := siteOf?_eq_some_iff.1 (hsite hroot)
    obtain ⟨hmem, rfl⟩ := mem_of_layer? hm
    exact ⟨m, hmem, i, hchild, hpos, Layer.lt_length_of_entry? hentry, e, hlhs, hentry⟩

theorem IsTree.checked (h : r.IsTree) {side? : Option Side} (hside : r.spineSide = .ok side?) :
    r.Checked :=
  ⟨h.root, h.nodup, fun _ hl => h.checkLayer_eq_ok hl, side?, hside⟩

theorem wellFormed_iff_checked : r.WellFormed ↔ r.Checked := by
  constructor
  · intro h
    unfold WellFormed check at h
    split at h
    · cases h
    · rename_i l rest hlayers
      split at h
      · cases h
      · rename_i hroot
        split at h
        · cases h
        · rename_i hnone
          split at h
          · cases h
          · rename_i hok
            refine ⟨⟨l, by simp [hlayers], by simpa using hroot⟩,
              (firstRepeated_eq_none_iff.1 hnone).1, forM_eq_ok_iff.1 hok, ?_⟩
            cases hside : r.spineSide with
            | error d => simp [hside, Except.map] at h
            | ok side? => exact ⟨side?, rfl⟩
  · rintro ⟨⟨l, hhead, hroot⟩, hnodup, hok, side?, hside⟩
    obtain ⟨rest, hlayers⟩ := List.head?_eq_some_iff.1 hhead
    have hnone : firstRepeated [] (r.layers.map Layer.address) = none :=
      firstRepeated_eq_none_iff.2 ⟨hnodup, by simp⟩
    have hforM : r.layers.forM r.checkLayer = .ok () := forM_eq_ok_iff.2 hok
    unfold WellFormed check
    rw [hnone, hforM, hside, hlayers]
    simp [hroot, Except.map]

theorem WellFormed.checked (h : r.WellFormed) : r.Checked :=
  wellFormed_iff_checked.1 h

namespace Checked

theorem eq_of_address_eq (h : r.Checked) {l m : Layer} (hl : l ∈ r.layers) (hm : m ∈ r.layers)
    (heq : l.address = m.address) : l = m :=
  h.isTree.eq_of_address_eq hl hm heq

theorem layer?_address (h : r.Checked) {l : Layer} (hl : l ∈ r.layers) :
    r.layer? l.address = some l :=
  h.isTree.layer?_address hl

theorem exists_lhs (h : r.Checked) {l : Layer} (hl : l ∈ r.layers) : ∃ e, l.lhs? = some e :=
  ⟨_, List.head?_eq_some_head (h.isTree.parent l hl)⟩

/-- Below the root, a layer expands a nonterminal of the layer above it, with the same label. -/
theorem exists_site (h : r.Checked) {l : Layer} (hl : l ∈ r.layers)
    (hroot : l.address ≠ Address.root) :
    ∃ m ∈ r.layers, ∃ i, l.address = m.address.child i ∧ 1 ≤ i ∧
      ∃ e, l.lhs? = some e ∧ m.entry? i = some ⟨.nonterminal, e.label⟩ := by
  obtain ⟨m, hm, i, hchild, hpos, -, e, hlhs, hentry⟩ := h.isTree.site l hl hroot
  exact ⟨m, hm, i, hchild, hpos, e, hlhs, hentry⟩

theorem path_ne_nil (h : r.Checked) {l : Layer} (hl : l ∈ r.layers) : l.address.path ≠ [] :=
  h.isTree.path_ne_nil hl

/-- A layer one step below another expands a nonterminal of it. -/
theorem site_of_child (h : r.Checked) {l m : Layer} (hl : l ∈ r.layers) (hm : m ∈ r.layers)
    {d : Nat} (haddress : m.address = l.address.child d) :
    m.address ≠ Address.root ∧
      ∃ e, m.lhs? = some e ∧ l.entry? d = some ⟨.nonterminal, e.label⟩ := by
  obtain ⟨hroot, -, hsite⟩ := h.isTree.site_of_child hl hm haddress
  exact ⟨hroot, hsite⟩

/-- Entry 0 is the parent of a layer, and no layer lies below it. -/
theorem one_le_of_child (h : r.Checked) {l m : Layer} (hl : l ∈ r.layers) (hm : m ∈ r.layers)
    {d : Nat} (haddress : m.address = l.address.child d) : 1 ≤ d :=
  (h.isTree.site_of_child hl hm haddress).2.1

/-- The root lies above every layer. -/
theorem root_prefix (h : r.Checked) {l : Layer} (hl : l ∈ r.layers) :
    Address.root.path <+: l.address.path :=
  h.isTree.root_prefix hl

end Checked

end Rule

end TreeInsertion
