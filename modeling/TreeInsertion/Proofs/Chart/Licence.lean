import TreeInsertion.Chart.Step
import TreeInsertion.Proofs.Chart.Growth
import TreeInsertion.Proofs.Selection

/-!
# What the analysis may do

A step concludes an item from items that are at hand, and says by which
derivation.  Besides taking steps, the analysis opens layers and notes demands,
and that is all.  What holds of every chart that such actions reach is proved here
once: the filing, and that the items and the demands make sense for the selected
trees.
-/

namespace TreeInsertion

variable {W : Type}

/-! ## Items that make sense -/

structure Item.Valid (sel : Selection W) (n : Nat) (x : Item W) : Prop where
  tree : x.tree ∈ sel.trees
  dot_pos : 1 ≤ x.dot
  dot_le : x.dot ≤ x.current.length
  left_le : x.left ≤ x.right
  right_le : x.right ≤ n
  adjoined : x.leftAdjoined = true → x.isPassive = true ∧ x.isAdjunctionSite = true

/-- A layer of a selected tree, before anything of it is recognised. -/
structure Item.Opens [One W] (sel : Selection W) (n : Nat) (x : Item W) : Prop where
  tree : x.tree ∈ sel.trees
  dot : x.dot = 1
  span : x.left = x.right
  right_le : x.right ≤ n
  plain : x.leftAdjoined = false
  early : x.isRootLayer = true → x.left ≤ x.tree.anchorPos
  weight : x.weight = if x.isRootLayer then x.tree.rule.weight else One.one

/-- A demand for an inner node is for a layer with the label, below the root of a selected tree. -/
structure Demand.Valid (sel : Selection W) (n : Nat) (d : Demand W) : Prop where
  pos_le : d.pos ≤ n
  inner : ∀ t i, d.reason = .inner t i → t ∈ sel.trees ∧
    t.rule.layers[i].address ≠ Address.root ∧ t.rule.layers[i].hasLabel d.label = true

namespace Item

theorem advanceTo_eq {x : Item W} (h : x.isActive = true) (right : Nat) (weight : W) :
    x.advanceTo right weight =
      { x with dot := x.dot + 1, right := right, weight := weight } := by
  have hadvance : x.advance = { x with dot := x.dot + 1 } := if_pos h
  rw [advanceTo, hadvance]

/-- Moving the dot sees nothing of the derivations. -/
theorem advanceTo_renewed {x : Item W} (h : x.isActive = true) (ds : List Derivation)
    (right : Nat) (weight : W) :
    ({ x with derivations := ds } : Item W).advanceTo right weight =
      { x.advanceTo right weight with derivations := ds } := by
  have hrenewed : ({ x with derivations := ds } : Item W).isActive = true := h
  rw [advanceTo_eq h, advanceTo_eq hrenewed]

theorem current_eq {x : Item W} {t : AnchoredTree W} (htree : x.tree = t)
    {i : Fin t.rule.layers.length} (hlayer : x.layer.val = i.val) :
    x.current = t.rule.layers[i] := by
  subst htree
  cases Fin.ext hlayer
  rfl

/-- The address of its layer says at which place of the tree an item stands. -/
theorem layer_eq {x : Item W} {t : AnchoredTree W} (hchecked : x.tree.rule.Checked)
    (htree : x.tree = t) {i : Fin t.rule.layers.length}
    (haddress : x.current.address = t.rule.layers[i].address) : x.layer.val = i.val := by
  subst htree
  have hlayer : x.layer.val < (x.tree.rule.layers.map Layer.address).length := by simp
  have hi : i.val < (x.tree.rule.layers.map Layer.address).length := by simp
  have heq : (x.tree.rule.layers.map Layer.address)[x.layer.val] =
      (x.tree.rule.layers.map Layer.address)[i.val] := by
    simpa [current] using haddress
  exact hchecked.nodup.getElem_inj_iff.1 heq

theorem isRootLayer_iff_head? {sel : Selection W} (hsel : sel.Sound) {x : Item W}
    (hx : x.tree ∈ sel.trees) :
    x.isRootLayer = true ↔ x.tree.rule.layers.head? = some x.current := by
  rw [isRootLayer_iff, hsel.head?_eq_some_iff hx, and_iff_right x.current_mem]

theorem Opens.valid [One W] {sel : Selection W} {n : Nat} {x : Item W} (h : x.Opens sel n)
    (hsel : sel.Sound) : x.Valid sel n where
  tree := h.tree
  dot_pos := Nat.le_of_eq h.dot.symm
  dot_le := by
    obtain ⟨e, he⟩ := (hsel.checked x.tree h.tree).exists_lhs x.current_mem
    rw [h.dot]
    exact Layer.length_pos_of_lhs? he
  left_le := Nat.le_of_eq h.span
  right_le := h.right_le
  adjoined hadjoined := by simp [h.plain] at hadjoined

/-- Neither the number nor the derivations matter. -/
theorem Valid.refiled {sel : Selection W} {n : Nat} {x : Item W} (h : x.Valid sel n) (id : Nat)
    (derivations : List Derivation) :
    ({ x with id := id, derivations := derivations } : Item W).Valid sel n :=
  ⟨h.tree, h.dot_pos, h.dot_le, h.left_le, h.right_le, h.adjoined⟩

theorem Valid.plain_of_isActive {sel : Selection W} {n : Nat} {x : Item W} (h : x.Valid sel n)
    (hactive : x.isActive = true) : x.leftAdjoined = false := by
  cases hadjoined : x.leftAdjoined with
  | false => rfl
  | true =>
      have hpassive := (h.adjoined hadjoined).1
      simp [isPassive, hactive] at hpassive

theorem Valid.advanceTo {sel : Selection W} {n : Nat} {x : Item W} (h : x.Valid sel n)
    (hactive : x.isActive = true) {right : Nat} (hright : x.right ≤ right) (hn : right ≤ n)
    (weight : W) : (x.advanceTo right weight).Valid sel n := by
  have hplain := h.plain_of_isActive hactive
  rw [advanceTo_eq hactive]
  exact ⟨h.tree, by simp, isActive_iff.1 hactive, Nat.le_trans h.left_le hright, hn,
    by simp [hplain]⟩

/-- An item that waits for a layer of its own tree stands before a nonterminal with its label. -/
theorem Valid.next?_of_child {sel : Selection W} (hsel : sel.Sound) {n : Nat} {p x : Item W}
    (hp : p.Valid sel n) (hx : x.Valid sel n) (htree : p.tree.id = x.tree.id)
    (haddress : x.current.address = p.nextAddress) :
    x.isRootLayer = false ∧
      ∃ e, x.current.lhs? = some e ∧ p.next? = some ⟨.nonterminal, e.label⟩ := by
  have hsame : p.tree = x.tree := hsel.eq_of_id_eq hp.tree hx.tree htree
  have hmem : p.current ∈ x.tree.rule.layers := hsame ▸ p.current_mem
  obtain ⟨hroot, e, hlhs, hentry⟩ :=
    (hsel.checked x.tree hx.tree).site_of_child hmem x.current_mem haddress
  exact ⟨Bool.eq_false_iff.2 fun h => hroot (isRootLayer_iff.1 h), e, hlhs, hentry⟩

end Item

namespace Chart

/-! ## Steps -/

/--
The steps of the analysis from items that are at hand, with the item that each of
them concludes and the derivation that it records.
-/
inductive Step [Mul W] (input : List String) (AtHand : Item W → Prop) :
    Item W → Derivation → Prop where
  /-- The word behind the dot stands in the input where the item ends. -/
  | scan {x : Item W} {word : String} (hx : AtHand x)
      (hnext : x.next? = some ⟨.terminal, word⟩) (hread : x.tree.mayRead word x.right = true)
      (hword : input[x.right]? = some word) :
      Step input AtHand (x.advanceTo (x.right + 1) x.weight) (.scan x.id)
  /-- A foot is passed over. -/
  | foot {x : Item W} {label : String} (hx : AtHand x) (hnext : x.next? = some ⟨.foot, label⟩) :
      Step input AtHand (x.advanceTo x.right x.weight) (.foot x.id)
  /-- A finished layer of the same tree stands where the parent waits for it. -/
  | complete {p d : Item W} (hp : AtHand p) (hd : AtHand d) (hactive : p.isActive = true)
      (hpassive : d.isPassive = true) (htree : d.tree.id = p.tree.id)
      (haddress : d.current.address = p.nextAddress) (hspan : d.left = p.right) :
      Step input AtHand (p.advanceTo d.right (p.weight * d.weight)) (.complete p.id d.id)
  /-- A finished initial tree stands where another tree waits for its root symbol. -/
  | substitution {p d : Item W} (hp : AtHand p) (hd : AtHand d)
      (hnext : p.next? = some ⟨.substitution, d.tree.root⟩) (hpassive : d.isPassive = true)
      (hroot : d.isRootLayer = true) (hinitial : d.tree.isInitial = true)
      (hother : p.tree.id ≠ d.tree.id) (hspan : d.left = p.right) :
      Step input AtHand (p.advanceTo d.right (p.weight * d.weight)) (.substitution p.id d.id)
  /-- A right auxiliary tree stands behind a host that no left one is joined to. -/
  | right {h a : Item W} (hh : AtHand h) (ha : AtHand a) (hhost : isHost a.tree.root h = true)
      (hplain : h.leftAdjoined = false)
      (haux : isFinishedAuxiliary a.tree.root .right a = true) (hspan : a.left = h.right) :
      Step input AtHand (joined h a .right) (.adjunction h.id a.id)
  /-- A left auxiliary tree stands before a host. -/
  | left {h a : Item W} (hh : AtHand h) (ha : AtHand a) (hhost : isHost a.tree.root h = true)
      (haux : isFinishedAuxiliary a.tree.root .left a = true) (hspan : a.right = h.left) :
      Step input AtHand (joined h a .left) (.adjunction h.id a.id)

theorem isHost_iff {label : String} {x : Item W} :
    isHost label x = true ↔
      x.isPassive = true ∧ x.isAdjunctionSite = true ∧ x.current.hasLabel label = true := by
  simp [isHost, and_assoc]

theorem isFinishedAuxiliary_iff {label : String} {side : Side} {x : Item W} :
    isFinishedAuxiliary label side x = true ↔
      x.isPassive = true ∧ x.isRootLayer = true ∧ x.tree.side? = some side ∧
        x.tree.root = label := by
  simp [isFinishedAuxiliary, and_assoc]

theorem isAdjunctionSite_of_isFinishedAuxiliary {x : Item W} {label : String} {side : Side}
    (h : isFinishedAuxiliary label side x = true) : x.isAdjunctionSite = false := by
  obtain ⟨-, hroot, hside, -⟩ := isFinishedAuxiliary_iff.1 h
  have hinitial : x.tree.isInitial = false := Rule.isInitial_of_side? hside
  simp [Item.isAdjunctionSite, hinitial, hroot]

namespace Step

variable [Mul W] {input : List String} {A B : Item W → Prop} {x : Item W} {why : Derivation}

theorem mono (h : Step input A x why) (hAB : ∀ y, A y → B y) : Step input B x why := by
  cases h with
  | scan hx hnext hread hword => exact scan (hAB _ hx) hnext hread hword
  | foot hx hnext => exact foot (hAB _ hx) hnext
  | complete hp hd hactive hpassive htree haddress hspan =>
      exact complete (hAB _ hp) (hAB _ hd) hactive hpassive htree haddress hspan
  | substitution hp hd hnext hpassive hroot hinitial hother hspan =>
      exact substitution (hAB _ hp) (hAB _ hd) hnext hpassive hroot hinitial hother hspan
  | right hh ha hhost hplain haux hspan =>
      exact right (hAB _ hh) (hAB _ ha) hhost hplain haux hspan
  | left hh ha hhost haux hspan => exact left (hAB _ hh) (hAB _ ha) hhost haux hspan

theorem exists_atHand (h : Step input A x why) : ∃ y, A y := by
  cases h <;> exact ⟨_, ‹_›⟩

/-- A step sees nothing of the derivations of its items. -/
theorem exists_of_renewed (h : Step input A x why)
    (hAB : ∀ y, A y → ∃ ds, B { y with derivations := ds }) :
    ∃ y, Step input B y why ∧ y.key = x.key ∧ y.weight = x.weight := by
  cases h with
  | @scan x word hx hnext hread hword =>
      obtain ⟨ds, hB⟩ := hAB x hx
      refine ⟨_, scan (x := { x with derivations := ds }) hB hnext hread hword, ?_⟩
      rw [Item.advanceTo_renewed (Item.isActive_of_next? hnext)]
      exact ⟨rfl, rfl⟩
  | @foot x label hx hnext =>
      obtain ⟨ds, hB⟩ := hAB x hx
      refine ⟨_, foot (x := { x with derivations := ds }) hB hnext, ?_⟩
      rw [Item.advanceTo_renewed (Item.isActive_of_next? hnext)]
      exact ⟨rfl, rfl⟩
  | @complete p d hp hd hactive hpassive htree haddress hspan =>
      obtain ⟨ds, hB⟩ := hAB p hp
      obtain ⟨ds', hB'⟩ := hAB d hd
      refine ⟨_, complete (p := { p with derivations := ds }) (d := { d with derivations := ds' })
        hB hB' hactive hpassive htree haddress hspan, ?_⟩
      rw [Item.advanceTo_renewed hactive]
      exact ⟨rfl, rfl⟩
  | @substitution p d hp hd hnext hpassive hroot hinitial hother hspan =>
      obtain ⟨ds, hB⟩ := hAB p hp
      obtain ⟨ds', hB'⟩ := hAB d hd
      refine ⟨_, substitution (p := { p with derivations := ds })
        (d := { d with derivations := ds' }) hB hB' hnext hpassive hroot hinitial hother hspan, ?_⟩
      rw [Item.advanceTo_renewed (Item.isActive_of_next? hnext)]
      exact ⟨rfl, rfl⟩
  | @right h a hh ha hhost hplain haux hspan =>
      obtain ⟨ds, hB⟩ := hAB h hh
      obtain ⟨ds', hB'⟩ := hAB a ha
      exact ⟨_, right (h := { h with derivations := ds }) (a := { a with derivations := ds' })
        hB hB' hhost hplain haux hspan, rfl, rfl⟩
  | @left h a hh ha hhost haux hspan =>
      obtain ⟨ds, hB⟩ := hAB h hh
      obtain ⟨ds', hB'⟩ := hAB a ha
      exact ⟨_, left (h := { h with derivations := ds }) (a := { a with derivations := ds' })
        hB hB' hhost haux hspan, rfl, rfl⟩

theorem exists_of_mem_antecedents (h : Step input A x why) {id : Nat}
    (hid : id ∈ why.antecedents) : ∃ y, A y ∧ y.id = id := by
  cases h with
  | scan hx _ _ _ => exact ⟨_, hx, (List.mem_singleton.1 hid).symm⟩
  | foot hx _ => exact ⟨_, hx, (List.mem_singleton.1 hid).symm⟩
  | complete hp hd _ _ _ _ _ =>
      rcases List.mem_pair.1 hid with rfl | rfl
      · exact ⟨_, hp, rfl⟩
      · exact ⟨_, hd, rfl⟩
  | substitution hp hd _ _ _ _ _ _ =>
      rcases List.mem_pair.1 hid with rfl | rfl
      · exact ⟨_, hp, rfl⟩
      · exact ⟨_, hd, rfl⟩
  | right hh ha _ _ _ _ =>
      rcases List.mem_pair.1 hid with rfl | rfl
      · exact ⟨_, hh, rfl⟩
      · exact ⟨_, ha, rfl⟩
  | left hh ha _ _ _ =>
      rcases List.mem_pair.1 hid with rfl | rfl
      · exact ⟨_, hh, rfl⟩
      · exact ⟨_, ha, rfl⟩

/-- A step from items that make sense concludes one that does. -/
theorem valid {sel : Selection W} (h : Step input A x why)
    (hA : ∀ y, A y → y.Valid sel input.length) : x.Valid sel input.length := by
  cases h with
  | @scan x word hx hnext hread hword =>
      have hlt : x.right < input.length := (List.getElem?_eq_some_iff.1 hword).1
      exact (hA x hx).advanceTo (Item.isActive_of_next? hnext) (Nat.le_succ _) hlt _
  | @foot x label hx hnext =>
      have hv := hA x hx
      exact hv.advanceTo (Item.isActive_of_next? hnext) (Nat.le_refl _) hv.right_le _
  | @complete p d hp hd hactive hpassive htree haddress hspan =>
      have hv := hA d hd
      exact (hA p hp).advanceTo hactive (hspan ▸ hv.left_le) hv.right_le _
  | @substitution p d hp hd hnext hpassive hroot hinitial hother hspan =>
      have hv := hA d hd
      exact (hA p hp).advanceTo (Item.isActive_of_next? hnext) (hspan ▸ hv.left_le) hv.right_le _
  | @right h a hh ha hhost hplain haux hspan =>
      have hv := hA h hh
      have ha := hA a ha
      have hle : h.left ≤ a.right := Nat.le_trans hv.left_le (hspan ▸ ha.left_le)
      exact ⟨hv.tree, hv.dot_pos, hv.dot_le, hle, ha.right_le, hv.adjoined⟩
  | @left h a hh ha hhost haux hspan =>
      have hv := hA h hh
      have ha := hA a ha
      have hle : a.left ≤ h.right := Nat.le_trans ha.left_le (hspan ▸ hv.left_le)
      have hsite := isHost_iff.1 hhost
      exact ⟨hv.tree, hv.dot_pos, hv.dot_le, hle, hv.right_le, fun _ => ⟨hsite.1, hsite.2.1⟩⟩

end Step

/-! ## Charts that the analysis can reach -/

section Reached

variable [One W] [Mul W]

/-- What the analysis may do to a chart. -/
def Licensed (sel : Selection W) (input : List String) (c : Chart W) : Action W → Prop
  | .add x why =>
      (why = .predicted ∧ x.Opens sel input.length) ∨ Step input c.Has x why
  | .note d => d.Valid sel input.length

theorem Licensed.mono {sel : Selection W} {input : List String} {c c' : Chart W} {a : Action W}
    (h : Licensed sel input c a) (hext : c.Extends c') : Licensed sel input c' a := by
  cases a with
  | add x why => exact h.imp id fun hstep => hstep.mono fun _ => hext.has
  | note d => exact h

inductive Reached (sel : Selection W) (starts : SymbolSet) (input : List String) :
    Chart W → Prop where
  | empty : Reached sel starts input (empty sel starts input.length)
  | apply {c : Chart W} {a : Action W} (hc : Reached sel starts input c)
      (ha : Licensed sel input c a) : Reached sel starts input (c.apply a)

/-- What holds of every chart that the analysis can reach. -/
structure Inv (sel : Selection W) (starts : SymbolSet) (n : Nat) (c : Chart W) : Prop where
  filed : c.Filed
  selection : c.selection = sel
  starts : c.starts = starts
  size : c.sets.size = n + 1
  valid : ∀ x ∈ c.items, x.Valid sel n
  demands : ∀ d ∈ c.demands, d.Valid sel n

namespace Inv

variable {sel : Selection W} {starts : SymbolSet} {n : Nat} {input : List String} {c : Chart W}

omit [One W] [Mul W] in
theorem valid_of_has (h : c.Inv sel starts n) {x : Item W} (hx : c.Has x) : x.Valid sel n :=
  hx.of_forall_mem (fun _ id derivations hy => hy.refiled id derivations) h.valid

theorem valid_of_licensed (h : c.Inv sel starts input.length) (hsel : sel.Sound) {x : Item W}
    {why : Derivation} (ha : Licensed sel input c (.add x why)) : x.Valid sel input.length := by
  rcases ha with ⟨-, hopens⟩ | hstep
  · exact hopens.valid hsel
  · exact hstep.valid fun y => h.valid_of_has

theorem fits_of_licensed (h : c.Inv sel starts input.length) (hsel : sel.Sound) {a : Action W}
    (ha : Licensed sel input c a) : a.Fits c := by
  cases a with
  | add x why =>
      have hright := (h.valid_of_licensed hsel ha).right_le
      have hsize := h.size
      simp only [Action.Fits]
      omega
  | note d => trivial

theorem apply (h : c.Inv sel starts input.length) (hsel : sel.Sound) {a : Action W}
    (ha : Licensed sel input c a) : (c.apply a).Inv sel starts input.length := by
  have hfits := h.fits_of_licensed hsel ha
  have hext := extends_apply hfits
  refine ⟨h.filed.apply hfits, hext.selection.trans h.selection, hext.starts.trans h.starts,
    hext.size.trans h.size, ?_, ?_⟩
  · cases a with
    | note d => exact h.valid
    | add x why =>
        exact h.filed.forall_mem_add why (fun _ id derivations hy => hy.refiled id derivations)
          h.valid (h.valid_of_licensed hsel ha)
  · cases a with
    | add x why =>
        intro d hd
        rw [Chart.apply, demands_add] at hd
        exact h.demands d hd
    | note d =>
        intro d' hd'
        rcases List.mem_append.1 hd' with hold | hnew
        · exact h.demands d' hold
        · rw [List.mem_singleton.1 hnew]
          exact ha

end Inv

theorem Reached.inv {sel : Selection W} {starts : SymbolSet} {input : List String} {c : Chart W}
    (h : Reached sel starts input c) (hsel : sel.Sound) : c.Inv sel starts input.length := by
  induction h with
  | empty =>
      exact ⟨filed_empty sel starts _, rfl, rfl, by simp [Chart.empty], by simp [Chart.empty],
        by simp [Chart.empty]⟩
  | apply _ ha ih => exact ih.apply hsel ha

end Reached

end Chart

end TreeInsertion
