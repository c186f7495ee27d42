import Mathlib.Data.List.Induction
import TreeInsertion.Proofs.Rule

/-!
# Places for words

The entries of a rule that words are read at, its anchors among them.  Each of them has an
address of its own, and the way to it leads through nonterminals.
-/

namespace TreeInsertion

variable {W : Type}

namespace Layer

theorem mem_drop_zipIdx {l : Layer} {e : Entry} {i : Nat} :
    (e, i) ∈ l.entries.zipIdx.drop 1 ↔ 1 ≤ i ∧ l.entry? i = some e := by
  constructor
  · intro hmem
    obtain ⟨k, hk⟩ := List.getElem?_of_mem hmem
    rw [List.getElem?_drop, List.getElem?_zipIdx] at hk
    obtain ⟨e', he, heq⟩ := Option.map_eq_some_iff.1 hk
    cases heq
    exact ⟨by omega, by simpa [Layer.entry?] using he⟩
  · rintro ⟨hi, hentry⟩
    have hsame : 1 + (i - 1) = i := by omega
    refine List.mem_of_getElem? (i := i - 1) ?_
    rw [List.getElem?_drop, List.getElem?_zipIdx, hsame, show l.entries[i]? = some e from hentry]
    simp

end Layer

namespace Rule

variable {r : Rule W}

def HasWordAt (r : Rule W) (g : Address) (word : String) : Prop :=
  ∃ l ∈ r.layers, ∃ i, 1 ≤ i ∧ l.entry? i = some ⟨.terminal, word⟩ ∧ g = l.address.child i

/-- The addresses of the terminals on a right-hand side that an anchor labels. -/
def anchorPlaces (r : Rule W) : List Address :=
  r.layers.flatMap fun l =>
    ((l.entries.zipIdx.drop 1).filter fun (e, _) =>
      e.role == .terminal && r.anchors.contains e.label).map fun (_, i) => l.address.child i

theorem mem_anchorPlaces {g : Address} :
    g ∈ r.anchorPlaces ↔ ∃ l ∈ r.layers, ∃ i word, 1 ≤ i ∧
      l.entry? i = some ⟨.terminal, word⟩ ∧ word ∈ r.anchors ∧ g = l.address.child i := by
  simp only [anchorPlaces, List.mem_flatMap, List.mem_map, List.mem_filter, Bool.and_eq_true,
    beq_iff_eq, List.contains_iff_mem]
  constructor
  · rintro ⟨l, hl, ⟨⟨role, word⟩, i⟩, ⟨hmem, hrole, hword⟩, rfl⟩
    obtain ⟨hi, hentry⟩ := Layer.mem_drop_zipIdx.1 hmem
    cases hrole
    exact ⟨l, hl, i, word, hi, hentry, hword, rfl⟩
  · rintro ⟨l, hl, i, word, hi, hentry, hword, rfl⟩
    exact ⟨l, hl, _, ⟨Layer.mem_drop_zipIdx.2 ⟨hi, hentry⟩, rfl, hword⟩, rfl⟩

theorem exists_hasWordAt {g : Address} (hg : g ∈ r.anchorPlaces) :
    ∃ word ∈ r.anchors, r.HasWordAt g word := by
  obtain ⟨l, hl, i, word, hi, hentry, hword, rfl⟩ := mem_anchorPlaces.1 hg
  exact ⟨word, hword, l, hl, i, hi, hentry, rfl⟩

namespace Checked

theorem nodup_anchorPlaces (h : r.Checked) : r.anchorPlaces.Nodup := by
  refine List.nodup_flatMap.2 ⟨fun l _ => ?_, ?_⟩
  · have hindices : ((l.entries.zipIdx.drop 1).map Prod.snd).Nodup := by
      rw [List.map_drop, List.zipIdx_map_snd]
      exact (List.nodup_range' 1).sublist (List.drop_sublist _ _)
    have hkept := hindices.sublist
      ((List.filter_sublist (p := fun (e, _) =>
        e.role == .terminal && r.anchors.contains e.label)).map Prod.snd)
    have hchild : Function.Injective l.address.child := fun i j heq =>
      (Address.child_injective heq).2
    have hplaces := hkept.map hchild
    rw [List.map_map] at hplaces
    exact hplaces
  · refine (List.pairwise_map.1 h.nodup).imp fun {l m} hne => ?_
    refine List.disjoint_iff_ne.2 ?_
    intro g hg g' hg' heq
    obtain ⟨p, -, rfl⟩ := List.mem_map.1 hg
    obtain ⟨q, -, rfl⟩ := List.mem_map.1 hg'
    exact hne (Address.child_injective heq).1

/-- Every step of the way to a layer leads through a nonterminal. -/
theorem exists_nonterminal_above (h : r.Checked) {l : Layer} (hl : l ∈ r.layers) {i : Nat}
    {rest : List Nat} {m : Layer} (hm : m ∈ r.layers)
    (hpath : m.address.path = l.address.path ++ i :: rest) :
    1 ≤ i ∧ ∃ label, l.entry? i = some ⟨.nonterminal, label⟩ := by
  induction rest using List.reverseRecOn generalizing m with
  | nil =>
      have haddress : m.address = l.address.child i := congrArg Address.mk hpath
      obtain ⟨-, e, -, hentry⟩ := h.site_of_child hl hm haddress
      exact ⟨h.one_le_of_child hl hm haddress, e.label, hentry⟩
  | append_singleton rest k ih =>
      have hroot : m.address ≠ Address.root := fun heq => by
        simp [heq, Address.root, List.cons_eq_append_iff, h.path_ne_nil hl] at hpath
      obtain ⟨m', hm', k', hchild, -⟩ := h.exists_site hm hroot
      have hinit : m'.address.path ++ [k'] = (l.address.path ++ i :: rest) ++ [k] := by
        rw [show m'.address.path ++ [k'] = m.address.path from congrArg Address.path hchild.symm,
          hpath]
        simp
      exact ih hm' (List.append_inj_left' hinit rfl)

/-- Every place for a word lies below the root. -/
theorem exists_below_root (h : r.Checked) {g : Address} {word : String}
    (hg : r.HasWordAt g word) : ∃ i rest, g.path = Address.root.path ++ i :: rest := by
  obtain ⟨l, hl, k, -, -, hchild⟩ := hg
  obtain ⟨below, hbelow⟩ := h.root_prefix hl
  rw [hchild, Address.child, ← hbelow]
  cases below with
  | nil => exact ⟨k, [], by simp⟩
  | cons i rest => exact ⟨i, rest ++ [k], by simp⟩

/-- A place for a word is an entry of the layer itself or lies below a nonterminal of it. -/
theorem exists_entry_of_word (h : r.Checked) {g : Address} {word : String}
    (hg : r.HasWordAt g word) {l : Layer} (hl : l ∈ r.layers) {i : Nat} {rest : List Nat}
    (hpath : g.path = l.address.path ++ i :: rest) :
    1 ≤ i ∧ ((rest = [] ∧ l.entry? i = some ⟨.terminal, word⟩) ∨
      (rest ≠ [] ∧ ∃ label, l.entry? i = some ⟨.nonterminal, label⟩)) := by
  obtain ⟨m, hm, k, hk, hentry, rfl⟩ := hg
  rcases List.eq_nil_or_concat rest with rfl | ⟨rest, k', rfl⟩
  · have heq : m.address.child k = l.address.child i := congrArg Address.mk hpath
    obtain ⟨haddress, rfl⟩ := Address.child_injective heq
    cases h.eq_of_address_eq hm hl haddress
    exact ⟨hk, Or.inl ⟨rfl, hentry⟩⟩
  · have hinit : m.address.path ++ [k] = (l.address.path ++ i :: rest) ++ [k'] := by
      rw [show m.address.path ++ [k] = (m.address.child k).path from rfl, hpath]
      simp
    obtain ⟨hi, hnonterminal⟩ :=
      h.exists_nonterminal_above hl hm (List.append_inj_left' hinit rfl)
    exact ⟨hi, Or.inr ⟨by simp, hnonterminal⟩⟩

theorem lt_length_of_word (h : r.Checked) {g : Address} {word : String}
    (hg : r.HasWordAt g word) {l : Layer} (hl : l ∈ r.layers) {i : Nat} {rest : List Nat}
    (hpath : g.path = l.address.path ++ i :: rest) : i < l.length := by
  obtain ⟨-, ⟨-, hentry⟩ | ⟨-, label, hentry⟩⟩ := h.exists_entry_of_word hg hl hpath
  · exact Layer.lt_length_of_entry? hentry
  · exact Layer.lt_length_of_entry? hentry

/-- A place for an anchor is an entry of the layer itself or lies below a nonterminal of it. -/
theorem exists_entry_of_place (h : r.Checked) {g : Address} (hg : g ∈ r.anchorPlaces) {l : Layer}
    (hl : l ∈ r.layers) {i : Nat} {rest : List Nat} (hpath : g.path = l.address.path ++ i :: rest) :
    1 ≤ i ∧ ((rest = [] ∧ ∃ word ∈ r.anchors, l.entry? i = some ⟨.terminal, word⟩) ∨
      (rest ≠ [] ∧ ∃ label, l.entry? i = some ⟨.nonterminal, label⟩)) := by
  obtain ⟨word, hword, hg⟩ := exists_hasWordAt hg
  obtain ⟨hi, hentry⟩ := h.exists_entry_of_word hg hl hpath
  exact ⟨hi, hentry.imp_left fun ⟨hrest, hentry⟩ => ⟨hrest, word, hword, hentry⟩⟩

end Checked

end Rule

end TreeInsertion
