import Mathlib.Data.List.Perm.Subperm
import TreeInsertion.Proofs.AnchorPlaces
import TreeInsertion.Proofs.Forest.Stems

/-!
# Anchor windows

Where the anchors of a tree stand in the input is its window.  A finished tree has read
every anchor of its rule at a position of its own, which fills the window if the rule has
as many places for anchors as anchors.  So no two trees of an analysis share a position
of their windows, and no tree is put in twice.
-/

namespace TreeInsertion

variable {W : Type}

def AnchoredTree.window (t : AnchoredTree W) : List Nat :=
  List.range' t.anchorPos t.rule.anchors.length

theorem AnchoredTree.mem_window {t : AnchoredTree W} {pos : Nat} :
    pos ∈ t.window ↔ t.anchorPos ≤ pos ∧ pos < t.anchorEnd :=
  List.mem_range'_1

theorem AnchoredTree.exists_mem_window {t : AnchoredTree W} (h : t.rule.anchors ≠ []) :
    ∃ pos, pos ∈ t.window :=
  ⟨t.anchorPos, mem_window.2 ⟨Nat.le_refl _, Nat.lt_add_of_pos_right (List.length_pos_iff.2 h)⟩⟩

def Analysis.windows (E : Analysis W) : List Nat :=
  E.flatMap fun e => e.second.window

@[simp] theorem Analysis.windows_append (E F : Analysis W) :
    Analysis.windows (E ++ F) = E.windows ++ F.windows :=
  List.flatMap_append

@[simp] theorem Analysis.windows_singleton (e : Edge (AnchoredTree W)) :
    Analysis.windows [e] = e.second.window := by
  simp [Analysis.windows]

def Selection.Anchored (sel : Selection W) : Prop :=
  ∀ t ∈ sel.trees, t.rule.anchors ≠ [] ∧ t.rule.anchorPlaces.length = t.rule.anchors.length

/-! ## Positions in a span -/

/-- Whether the positions are distinct and lie in the span. -/
structure Spread (left right : Nat) (positions : List Nat) : Prop where
  nodup : positions.Nodup
  between : ∀ pos ∈ positions, left ≤ pos ∧ pos < right

namespace Spread

variable {l m r : Nat} {P Q : List Nat}

theorem nil (l r : Nat) : Spread l r [] :=
  ⟨.nil, by simp⟩

theorem singleton (pos : Nat) : Spread pos (pos + 1) [pos] :=
  ⟨by simp, by simp⟩

theorem perm (h : Spread l r P) (hperm : P.Perm Q) : Spread l r Q :=
  ⟨hperm.nodup h.nodup, fun pos hpos => h.between pos (hperm.mem_iff.2 hpos)⟩

theorem append (h : Spread l m P) (h' : Spread m r Q) (hlm : l ≤ m) (hmr : m ≤ r) :
    Spread l r (P ++ Q) := by
  refine ⟨List.nodup_append.2 ⟨h.nodup, h'.nodup, ?_⟩, ?_⟩
  · intro pos hpos pos' hpos' heq
    have hbefore := h.between pos hpos
    have hbehind := h'.between pos' hpos'
    omega
  · intro pos hpos
    rcases List.mem_append.1 hpos with hpos | hpos
    · have := h.between pos hpos
      omega
    · have := h'.between pos hpos
      omega

end Spread

/-! ## What an item has read -/

namespace Item

/-- Whether every place for an anchor before the dot is among the given ones. -/
def Covered (x : Item W) (places : List Address) : Prop :=
  ∀ g ∈ x.tree.rule.anchorPlaces, x.Passed g → g ∈ places

/--
Whether the item has read the anchors of its own tree before the dot at the given
positions of the window, apart from the windows of the trees that are put in.
-/
structure HasRead (x : Item W) (E : Analysis W) (own : List (Address × Nat)) : Prop where
  covered : x.Covered (own.map Prod.fst)
  inWindow : ∀ p ∈ own, p.2 ∈ x.tree.window
  spread : Spread x.left x.right (own.map Prod.snd ++ E.windows)

section Places

variable {sel : Selection W} {n : Nat} {p d x : Item W}

/-- At the dot, the place for an anchor is a terminal or lies below a nonterminal. -/
theorem role_of_place (hsel : sel.Sound) (hp : p.tree ∈ sel.trees) {e : Entry}
    (hnext : p.next? = some e) {g : Address} (hg : g ∈ p.tree.rule.anchorPlaces)
    {rest : List Nat} (hpath : g.path = p.nextAddress.path ++ rest) :
    (rest = [] ∧ e.role = .terminal ∧ e.label ∈ p.tree.rule.anchors) ∨
      (rest ≠ [] ∧ e.role = .nonterminal) := by
  obtain ⟨word, hword, hg⟩ := Rule.exists_hasWordAt hg
  refine (role_of_word hsel hp hnext hg hpath).imp_left ?_
  rintro ⟨hrest, rfl⟩
  exact ⟨hrest, rfl, hword⟩

theorem Covered.advances {places new : List Address} {right : Nat} (h : p.Covered places)
    (hadvances : p.Advances x right)
    (hnew : ∀ g ∈ p.tree.rule.anchorPlaces, ∀ rest, g.path = p.nextAddress.path ++ rest →
      g ∈ new) : x.Covered (places ++ new) := by
  intro g hg hpassed
  rw [hadvances.tree] at hg
  rcases hadvances.passed_iff.1 hpassed with hold | ⟨rest, hpath⟩
  · exact List.mem_append_left _ (h g hg hold)
  · exact List.mem_append_right _ (hnew g hg rest hpath)

/-- Before an entry opens, nothing is passed. -/
theorem covered_of_dot (hsel : sel.Sound) (hx : x.tree ∈ sel.trees) (hdot : x.dot = 1) :
    x.Covered [] := by
  rintro g hg ⟨i, rest, hpath, hi⟩
  have hpos := ((hsel.checked x.tree hx).exists_entry_of_place hg x.current_mem hpath).1
  omega

/-- What lies below the entry behind the dot is what the finished layer for it has covered. -/
theorem Covered.child {places : List Address} (h : d.Covered places) (hsel : sel.Sound)
    (hp : p.Valid sel n) (hd : d.Valid sel n) (hpassive : d.isPassive = true)
    (htree : d.tree = p.tree) (haddress : d.current.address = p.nextAddress) :
    ∀ g ∈ p.tree.rule.anchorPlaces, ∀ rest, g.path = p.nextAddress.path ++ rest → g ∈ places := by
  intro g hg rest hpath
  obtain ⟨word, -, hword⟩ := Rule.exists_hasWordAt hg
  rw [← htree] at hg
  exact h g hg (passed_child hsel hp hd hpassive htree haddress hword hpath)

/-- A finished tree has filled its window. -/
theorem HasRead.spread_window (hsel : sel.Sound) (hanchored : sel.Anchored)
    (hx : x.tree ∈ sel.trees) (hpassive : x.isPassive = true) (hroot : x.isRootLayer = true)
    {E : Analysis W} {own : List (Address × Nat)} (h : x.HasRead E own) :
    Spread x.left x.right (x.tree.window ++ E.windows) := by
  have hplaces : x.tree.rule.anchorPlaces ⊆ own.map Prod.fst := by
    intro g hg
    obtain ⟨word, -, hword⟩ := Rule.exists_hasWordAt hg
    exact h.covered g hg (passed_of_finished hsel hx hpassive hroot hword)
  have hlength : x.tree.window.length ≤ (own.map Prod.snd).length := by
    have hle := ((hsel.checked x.tree hx).nodup_anchorPlaces.subperm hplaces).length_le
    simpa [AnchoredTree.window, (hanchored x.tree hx).2] using hle
  have hnodup := (List.nodup_append.1 h.spread.nodup).1
  have hsubset : own.map Prod.snd ⊆ x.tree.window := by
    intro pos hpos
    obtain ⟨q, hq, rfl⟩ := List.mem_map.1 hpos
    exact h.inWindow q hq
  have hperm := (hnodup.subperm hsubset).perm_of_length_le hlength
  exact h.spread.perm (hperm.append_right _)

end Places

/-! ## Step by step -/

section Steps

variable {sel : Selection W} {n : Nat} {p d x : Item W} {E F : Analysis W}
  {own own' : List (Address × Nat)}

theorem hasRead_opened (hsel : sel.Sound) (hx : x.tree ∈ sel.trees) (hdot : x.dot = 1) :
    x.HasRead [] [] where
  covered := covered_of_dot hsel hx hdot
  inWindow := by simp
  spread := .nil _ _

/-- A step over an entry that is no anchor of the tree. -/
theorem HasRead.step (h : p.HasRead E own) (hsel : sel.Sound) (hp : p.Valid sel n) {e : Entry}
    (hnext : p.next? = some e) (hrole : e.role ≠ .nonterminal)
    (hword : e.role = .terminal → e.label ∉ p.tree.rule.anchors) {right : Nat}
    (hadvances : p.Advances x right) {new : List Nat} (hnew : Spread p.right right new)
    (hright : p.right ≤ right) (hE : (E.windows ++ new).Perm F.windows) : x.HasRead F own := by
  have hcovered : x.Covered (own.map Prod.fst ++ []) := by
    refine h.covered.advances hadvances fun g hg rest hpath => ?_
    rcases role_of_place hsel hp.tree hnext hg hpath with ⟨-, hterminal, hmem⟩ | ⟨-, hrole'⟩
    · exact absurd hmem (hword hterminal)
    · exact absurd hrole' hrole
  rw [List.append_nil] at hcovered
  refine ⟨hcovered, hadvances.tree ▸ h.inWindow, ?_⟩
  rw [hadvances.left, hadvances.right]
  refine (h.spread.append hnew hp.left_le hright).perm ?_
  rw [List.append_assoc]
  exact hE.append_left _

/-- An anchor is read in the window. -/
theorem HasRead.scan_anchor (h : p.HasRead E own) (hp : p.Valid sel n) {word : String}
    (hread : p.tree.mayRead word p.right = true) (hword : word ∈ p.tree.rule.anchors)
    (hplace : ∀ g ∈ p.tree.rule.anchorPlaces, ∀ rest, g.path = p.nextAddress.path ++ rest →
      rest = [])
    (hadvances : p.Advances x (p.right + 1)) :
    x.HasRead E (own ++ [(p.nextAddress, p.right)]) where
  covered := by
    rw [List.map_append]
    refine h.covered.advances hadvances fun g hg rest hpath => ?_
    rw [hplace g hg rest hpath, List.append_nil] at hpath
    exact List.mem_singleton.2 (congrArg Address.mk hpath)
  inWindow := by
    have hwindow : p.right ∈ p.tree.window := by
      rw [AnchoredTree.mem_window]
      simpa [AnchoredTree.mayRead, hword] using hread
    rw [hadvances.tree]
    intro q hq
    rcases List.mem_append.1 hq with hq | hq
    · exact h.inWindow q hq
    · rw [List.mem_singleton.1 hq]
      exact hwindow
  spread := by
    rw [hadvances.left, hadvances.right]
    refine (h.spread.append (.singleton p.right) hp.left_le (Nat.le_succ _)).perm ?_
    rw [List.map_append, List.append_assoc, List.append_assoc]
    exact List.perm_append_comm.append_left _

theorem HasRead.complete (h : p.HasRead E own) (h' : d.HasRead F own') (hsel : sel.Sound)
    (hp : p.Valid sel n) (hd : d.Valid sel n) (hpassive : d.isPassive = true)
    (htree : d.tree = p.tree) (haddress : d.current.address = p.nextAddress)
    (hspan : d.left = p.right) (hadvances : p.Advances x d.right) :
    x.HasRead (E ++ F) (own ++ own') where
  covered := by
    rw [List.map_append]
    exact h.covered.advances hadvances (h'.covered.child hsel hp hd hpassive htree haddress)
  inWindow := by
    rw [hadvances.tree]
    intro q hq
    rcases List.mem_append.1 hq with hq | hq
    · exact h.inWindow q hq
    · exact htree ▸ h'.inWindow q hq
  spread := by
    rw [hadvances.left, hadvances.right]
    refine (h.spread.append (hspan ▸ h'.spread) hp.left_le (hspan ▸ hd.left_le)).perm ?_
    refine List.perm_iff_count.2 fun pos => ?_
    simp only [List.map_append, Analysis.windows_append, List.count_append]
    omega

/-- An auxiliary tree is read beside the host. -/
theorem HasRead.joined [Mul W] {host aux : Item W} {k : Edge (AnchoredTree W)}
    (h : host.HasRead E own) (side : Side)
    (haux : Spread aux.left aux.right (k.second.window ++ F.windows))
    (hhost : host.Valid sel n) (hvalid : aux.Valid sel n)
    (hspan : match side with
      | .left => aux.right = host.left
      | .right => aux.left = host.right)
    (hagrees : (Chart.joined host aux side).Agrees x) : x.HasRead (E ++ F ++ [k]) own where
  covered := by
    intro g hg hpassed
    have htree : x.tree = host.tree := by cases side <;> exact hagrees.tree
    rw [htree] at hg
    refine h.covered g hg ?_
    cases side <;> exact hagrees.passed_iff.1 hpassed
  inWindow := by
    cases side with
    | left => exact hagrees.tree ▸ h.inWindow
    | right => exact hagrees.tree ▸ h.inWindow
  spread := by
    cases side with
    | left =>
        have hspread := haux.append (hspan ▸ h.spread) hvalid.left_le (hspan ▸ hhost.left_le)
        rw [hagrees.left, hagrees.right]
        refine Spread.perm hspread (List.perm_iff_count.2 fun pos => ?_)
        simp only [Analysis.windows_append, Analysis.windows_singleton, List.count_append]
        omega
    | right =>
        have hspread := h.spread.append (hspan ▸ haux) hhost.left_le (hspan ▸ hvalid.left_le)
        rw [hagrees.left, hagrees.right]
        refine Spread.perm hspread (List.perm_iff_count.2 fun pos => ?_)
        simp only [Analysis.windows_append, Analysis.windows_singleton, List.count_append]
        omega

end Steps

end Item

namespace Chart

variable [Mul W] {sel : Selection W} {starts : SymbolSet} {n : Nat} {c : Chart W}

/-- Whatever an account leads to has read the anchors that it has passed. -/
theorem Recounts.exists_hasRead (hsel : sel.Sound) (hanchored : sel.Anchored)
    (hinv : c.Inv sel starts n) {A : Account} {x : Item W} {E : Analysis W}
    (h : c.Recounts A x E) : ∃ own, x.HasRead E own := by
  induction h with
  | opened hx hdot _ _ => exact ⟨[], Item.hasRead_opened hsel (hinv.valid_of_holds hx).tree hdot⟩
  | @scan x p A E word hx hp hnext hread hagrees ih =>
      obtain ⟨own, hown⟩ := ih
      have hvalid := hinv.valid_of_holds hp.holds
      have hadvances := hagrees.advances (Item.isActive_of_next? hnext)
      by_cases hword : word ∈ p.tree.rule.anchors
      · refine ⟨_, hown.scan_anchor hvalid hread hword (fun g hg rest hpath => ?_) hadvances⟩
        rcases Item.role_of_place hsel hvalid.tree hnext hg hpath with ⟨hrest, -⟩ | ⟨-, hrole⟩
        · exact hrest
        · cases hrole
      · exact ⟨own, hown.step hsel hvalid hnext (by simp) (fun _ => hword) hadvances (.nil _ _)
          (Nat.le_succ _) (by simp)⟩
  | @foot x p A E label hx hp hnext hagrees ih =>
      obtain ⟨own, hown⟩ := ih
      have hvalid := hinv.valid_of_holds hp.holds
      have hadvances := hagrees.advances (Item.isActive_of_next? hnext)
      exact ⟨own, hown.step hsel hvalid hnext (by simp) (by simp) hadvances (.nil _ _)
        (Nat.le_refl _) (by simp)⟩
  | complete hx hp hd hactive hpassive htree haddress hspan hagrees ihp ihd =>
      obtain ⟨own, hown⟩ := ihp
      obtain ⟨own', hown'⟩ := ihd
      exact ⟨own ++ own', hown.complete hown' hsel (hinv.valid_of_holds hp.holds)
        (hinv.valid_of_holds hd.holds) hpassive htree haddress hspan (hagrees.advances hactive)⟩
  | substitution hx hp hd hnext hpassive hroot hspan hagrees ihp ihd =>
      obtain ⟨own, hown⟩ := ihp
      obtain ⟨own', hown'⟩ := ihd
      have hvalid := hinv.valid_of_holds hd.holds
      have hfilled := hown'.spread_window hsel hanchored hvalid.tree hpassive hroot
      refine ⟨own, hown.step hsel (hinv.valid_of_holds hp.holds) hnext (by simp) (by simp)
        (hagrees.advances (Item.isActive_of_next? hnext)) (hspan ▸ hfilled)
        (hspan ▸ hvalid.left_le) ?_⟩
      refine List.perm_iff_count.2 fun pos => ?_
      simp only [Analysis.windows_append, Analysis.windows_singleton, List.count_append,
        substitutionEdge]
      omega
  | right spine hx hh ha hhost hplain haux hspan hagrees ihh iha =>
      obtain ⟨own, hown⟩ := ihh
      obtain ⟨own', hown'⟩ := iha
      obtain ⟨hpassive, hroot, -, -⟩ := isFinishedAuxiliary_iff.1 haux
      have hvalid := hinv.valid_of_holds ha.holds
      have hfilled := hown'.spread_window hsel hanchored hvalid.tree hpassive hroot
      exact ⟨own, hown.joined .right hfilled (hinv.valid_of_holds hh.holds) hvalid hspan
        hagrees⟩
  | left spine hx hh ha hhost haux hspan hagrees ihh iha =>
      obtain ⟨own, hown⟩ := ihh
      obtain ⟨own', hown'⟩ := iha
      obtain ⟨hpassive, hroot, -, -⟩ := isFinishedAuxiliary_iff.1 haux
      have hvalid := hinv.valid_of_holds ha.holds
      have hfilled := hown'.spread_window hsel hanchored hvalid.tree hpassive hroot
      exact ⟨own, hown.joined .left hfilled (hinv.valid_of_holds hh.holds) hvalid hspan
        hagrees⟩

end Chart

end TreeInsertion
