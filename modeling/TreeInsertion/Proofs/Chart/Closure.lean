import TreeInsertion.Proofs.Chart.Derivations
import TreeInsertion.Proofs.Chart.Schedule
import TreeInsertion.Proofs.Chart.Soundness

/-!
# No step is missed

Whichever of its items has its turn last, a step between items that had theirs is
recorded.  This needs that a recognised tree has read something: an empty one could
come up at a position after the items that wait for it there.
-/

namespace TreeInsertion

variable {W : Type}

def Selection.Lexicalised (sel : Selection W) : Prop :=
  ∀ t ∈ sel.trees, t.rule.HasTerminal

namespace Item.Means

variable {sel : Selection W} {input : List String} {n : Nat} {x : Item W}

/-- A recognised tree has read something. -/
theorem lt_of_isRootLayer (h : x.Means sel input) (hsel : sel.Sound) (hlex : sel.Lexicalised)
    (hv : x.Valid sel n) (hpassive : x.isPassive = true) (hroot : x.isRootLayer = true) :
    x.left < x.right := by
  obtain ⟨-, before, node, behind⟩ := h.full hv hpassive
  have hnode := node.lt_of_hasTerminal (hsel.checked x.tree hv.tree) (hlex x.tree hv.tree)
    ((isRootLayer_iff_head? hsel hv.tree).1 hroot)
  have hbefore := before.le
  have hbehind := behind.le
  omega

/-- A node with a left auxiliary tree has read something. -/
theorem lt_of_leftAdjoined (h : x.Means sel input) (hsel : sel.Sound) (hlex : sel.Lexicalised)
    (hadjoined : x.leftAdjoined = true) : x.left < x.right := by
  obtain ⟨u, hu, m, j, -, hroot, -, htree, hnode⟩ := h.adjoined hadjoined
  have htree := htree.lt_of_hasTerminal (hsel.checked u hu) (hlex u hu) hroot
  have hnode := hnode.le
  omega

end Item.Means

namespace Chart

variable [One W] [Mul W] {sel : Selection W} {starts : SymbolSet} {input : List String}

/-! ## What a turn records -/

omit [One W] [Mul W] in
theorem Filed.exists_mem_itemsAt {c : Chart W} (h : c.Filed) {x : Item W} (hx : c.Has x) :
    ∃ ds, { x with derivations := ds } ∈ c.itemsAt x.right := by
  obtain ⟨ds, hmem⟩ := hx.exists_mem
  exact ⟨ds, h.mem_itemsAt.2 ⟨hmem, rfl⟩⟩

section Turn

variable {c : Chart W} {x : Item W}

/-- What a phase does, whenever during the turn it looks at the chart, is recorded. -/
theorem records_of_phaseOf (hsel : sel.Sound) (hc : Reached sel starts input c) (hx : c.Has x)
    {phase : Phase W} (hphase : PhaseOf input c x phase) {cell : Item.Key} {why : Derivation}
    (h : ∀ c', Progress sel starts input x.right c c' →
      ∃ y, y.key = cell ∧ .add y why ∈ phase c') : (c.process input x).Records cell why := by
  obtain ⟨c', hbefore, -, hshows⟩ := (progress_process hsel hc hx).2 phase (mem_phases.2 hphase)
  obtain ⟨y, rfl, hmem⟩ := h c' hbefore
  exact hshows _ hmem

theorem records_scan (hsel : sel.Sound) (hc : Reached sel starts input c) (hx : c.Has x)
    {word : String} (hnext : x.next? = some ⟨.terminal, word⟩)
    (hread : x.tree.mayRead word x.right = true) (hword : input[x.right]? = some word) :
    (c.process input x).Records (x.advanceTo (x.right + 1) x.weight).key (.scan x.id) := by
  refine records_of_phaseOf hsel hc hx (.scan hnext) fun c' _ => ⟨_, rfl, ?_⟩
  simp [scan, hread, hword]

theorem records_foot (hsel : sel.Sound) (hc : Reached sel starts input c) (hx : c.Has x)
    {label : String} (hnext : x.next? = some ⟨.foot, label⟩) :
    (c.process input x).Records (x.advanceTo x.right x.weight).key (.foot x.id) := by
  refine records_of_phaseOf hsel hc hx (.passFoot hnext) fun c' _ => ⟨_, rfl, ?_⟩
  simp [passFoot]

/-- A finished layer comes after the parent that waits for it. -/
theorem records_complete_child (hsel : sel.Sound) (hc : Reached sel starts input c) (hx : c.Has x)
    {p : Item W} (hp : c.Has p) (hactive : p.isActive = true) (hpassive : x.isPassive = true)
    (htree : x.tree.id = p.tree.id) (haddress : x.current.address = p.nextAddress)
    (hspan : x.left = p.right) :
    (c.process input x).Records (p.advanceTo x.right (p.weight * x.weight)).key
      (.complete p.id x.id) := by
  have hinv := hc.inv hsel
  have hvp := hinv.valid_of_has hp
  obtain ⟨hroot, -⟩ := hvp.next?_of_child hsel (hinv.valid_of_has hx) htree.symm haddress
  refine records_of_phaseOf hsel hc hx (.fillParents hpassive hroot) fun c' hc' => ?_
  obtain ⟨ds, hmem⟩ := (hc'.reached.inv hsel).filed.exists_mem_itemsAt (hc'.extension.has hp)
  refine ⟨({ p with derivations := ds } : Item W).advanceTo x.right (p.weight * x.weight), ?_, ?_⟩
  · rw [Item.advanceTo_renewed hactive]
    rfl
  · refine List.mem_map.2 ⟨_, List.mem_filter.2 ⟨hspan ▸ hmem, ?_⟩, rfl⟩
    have hpath := (hsel.checked p.tree hvp.tree).path_ne_nil p.current_mem
    have hparent := Address.parent?_child p.dot hpath
    simp only [Item.isAbove, haddress, Item.nextAddress, Address.last?_child, htree,
      beq_self_eq_true, Bool.and_true, Bool.true_and, beq_iff_eq]
    exact hparent

/-- A finished layer that covers nothing was there before the parent that waits for it. -/
theorem records_complete_empty (hsel : sel.Sound) (hc : Reached sel starts input c) (hx : c.Has x)
    {d : Item W} (hd : c.Has d) (hpassive : d.isPassive = true)
    (hplain : d.leftAdjoined = false) (htree : d.tree.id = x.tree.id)
    (haddress : d.current.address = x.nextAddress) (hleft : d.left = x.right)
    (hright : d.right = x.right) :
    (c.process input x).Records (x.advanceTo d.right (x.weight * d.weight)).key
      (.complete x.id d.id) := by
  have hinv := hc.inv hsel
  have hvx := hinv.valid_of_has hx
  have hvd := hinv.valid_of_has hd
  have hsame := hsel.eq_of_id_eq hvd.tree hvx.tree htree
  obtain ⟨-, e, -, hnext⟩ := hvx.next?_of_child hsel hvd htree.symm haddress
  obtain ⟨i, hi⟩ : ∃ i, x.tree.rule.indexOf? x.nextAddress = some i := by
    refine Option.ne_none_iff_exists'.1 fun hnone => ?_
    have hlayer := (hsel.checked d.tree hvd.tree).layer?_address d.current_mem
    rw [hsame, haddress, Rule.indexOf?_eq_none hnone] at hlayer
    cases hlayer
  let j : Fin x.tree.rule.layers.length := ⟨i, Rule.lt_length_of_indexOf? hi⟩
  have hindex : d.layer.val = j.val :=
    Item.layer_eq (hsel.checked d.tree hvd.tree) hsame
      (haddress.trans (Rule.address_of_indexOf? hi).symm)
  refine records_of_phaseOf hsel hc hx (.completeEmpty hnext hi) fun c' hc' => ?_
  obtain ⟨ds, hmem⟩ := (hc'.extension.has hd).exists_mem
  have hkey : d.key =
      ⟨x.tree.id, j, x.tree.rule.layers[j].length, x.right, x.right, false⟩ := by
    rw [Item.key, hvd.dot_eq hpassive, Item.current_eq hsame hindex, htree, hindex, hleft, hright,
      hplain]
  refine ⟨x.advanceTo d.right (x.weight * d.weight), rfl, ?_⟩
  have hfind := (hc'.reached.inv hsel).filed.find?_eq_some_iff.2 ⟨hmem, hkey⟩
  simp only [completeEmpty]
  rw [hfind]
  exact List.mem_singleton_self _

theorem records_substitution (hsel : sel.Sound) (hc : Reached sel starts input c) (hx : c.Has x)
    {p : Item W} (hp : c.Has p) (hnext : p.next? = some ⟨.substitution, x.tree.root⟩)
    (hpassive : x.isPassive = true) (hroot : x.isRootLayer = true)
    (hinitial : x.tree.isInitial = true) (hother : p.tree.id ≠ x.tree.id)
    (hspan : x.left = p.right) :
    (c.process input x).Records (p.advanceTo x.right (p.weight * x.weight)).key
      (.substitution p.id x.id) := by
  refine records_of_phaseOf hsel hc hx (.fillSites hpassive hroot hinitial) fun c' hc' => ?_
  obtain ⟨ds, hmem⟩ := (hc'.reached.inv hsel).filed.exists_mem_itemsAt (hc'.extension.has hp)
  refine ⟨({ p with derivations := ds } : Item W).advanceTo x.right (p.weight * x.weight), ?_, ?_⟩
  · rw [Item.advanceTo_renewed (Item.isActive_of_next? hnext)]
    rfl
  · refine List.mem_map.2 ⟨_, List.mem_filter.2 ⟨hspan ▸ hmem, ?_⟩, rfl⟩
    rw [Bool.and_eq_true, bne_iff_ne, beq_iff_eq]
    exact ⟨hother, hnext⟩

/-- A right auxiliary tree comes after the host that it borders. -/
theorem records_right (hsel : sel.Sound) (hc : Reached sel starts input c) (hx : c.Has x)
    {h : Item W} (hh : c.Has h) (hhost : isHost x.tree.root h = true)
    (hplain : h.leftAdjoined = false) (haux : isFinishedAuxiliary x.tree.root .right x = true)
    (hspan : x.left = h.right) :
    (c.process input x).Records (joined h x .right).key (.adjunction h.id x.id) := by
  refine records_of_phaseOf hsel hc hx (.joinRight haux) fun c' hc' => ?_
  obtain ⟨ds, hmem⟩ := (hc'.reached.inv hsel).filed.exists_mem_itemsAt (hc'.extension.has hh)
  refine ⟨joined { h with derivations := ds } x .right, rfl, ?_⟩
  refine List.mem_map.2 ⟨_, List.mem_filter.2 ⟨hspan ▸ hmem, ?_⟩, rfl⟩
  rw [Bool.and_eq_true, Bool.not_eq_true']
  exact ⟨hhost, hplain⟩

/-- A host comes after the left auxiliary tree that it borders. -/
theorem records_left_of_host (hsel : sel.Sound) (hc : Reached sel starts input c) (hx : c.Has x)
    {a : Item W} (ha : c.Has a) (hhost : isHost a.tree.root x = true)
    (haux : isFinishedAuxiliary a.tree.root .left a = true) (hspan : a.right = x.left) :
    (c.process input x).Records (joined x a .left).key (.adjunction x.id a.id) := by
  obtain ⟨e, hlhs, hlabel⟩ := Layer.hasLabel_iff.1 (isHost_iff.1 hhost).2.2
  rw [← hlabel] at hhost
  refine records_of_phaseOf hsel hc hx (.takeLeft hhost hlhs) fun c' hc' => ?_
  obtain ⟨ds, hmem⟩ := (hc'.reached.inv hsel).filed.exists_mem_itemsAt (hc'.extension.has ha)
  refine ⟨joined x { a with derivations := ds } .left, rfl, ?_⟩
  exact List.mem_map.2 ⟨_, List.mem_filter.2 ⟨hspan ▸ hmem, hlabel ▸ haux⟩, rfl⟩

/-- A left auxiliary tree comes after the host that it borders, which covers nothing then. -/
theorem records_left_of_aux (hsel : sel.Sound) (hc : Reached sel starts input c) (hx : c.Has x)
    {h : Item W} (hh : c.Has h) (hhost : isHost x.tree.root h = true)
    (haux : isFinishedAuxiliary x.tree.root .left x = true) (hleft : x.right = h.left)
    (hright : h.right = x.right) :
    (c.process input x).Records (joined h x .left).key (.adjunction h.id x.id) := by
  refine records_of_phaseOf hsel hc hx (.joinLeft haux) fun c' hc' => ?_
  obtain ⟨ds, hmem⟩ := (hc'.reached.inv hsel).filed.exists_mem_itemsAt (hc'.extension.has hh)
  refine ⟨joined { h with derivations := ds } x .left, rfl, ?_⟩
  refine List.mem_map.2 ⟨_, List.mem_filter.2 ⟨hright ▸ hmem, ?_⟩, rfl⟩
  rw [Bool.and_eq_true, beq_iff_eq]
  exact ⟨hhost, hleft.symm⟩

end Turn

/-! ## The invariant -/

/-- Whether all steps between items that had their turn are recorded. -/
def ClosedUpTo (input : List String) (k i : Nat) (c : Chart W) : Prop :=
  ∀ x why, Step input (Done k i c) x why → c.Records x.key why

/-- A turn records every step of its item with the items that had their turn before. -/
theorem records_of_step (hsel : sel.Sound) (hlex : sel.Lexicalised) {k i : Nat} {c : Chart W}
    {x : Item W} (hc : Reached sel starts input c) (hturn : c.turn k i = some x)
    (hclosed : ClosedUpTo input k i c) {y : Item W} {why : Derivation}
    (h : Step input (fun z => Done k i c z ∨ z = x) y why) :
    (c.process input x).Records y.key why := by
  have hinv := hc.inv hsel
  obtain ⟨hx, -, hright, -⟩ := hinv.filed.of_turn hturn
  have hext := (progress_process hsel hc hx).1.extension
  have hmeans {z : Item W} (hz : Done k i c z) : z.Means sel input := hc.means_of_has hsel hz.1
  -- an item that had its turn and starts where this one ends covers nothing
  have hempty {z : Item W} (hz : Done k i c z) (hspan : z.left = x.right) : z.right = x.right := by
    have hle := (hinv.valid_of_has hz.1).left_le
    have hk := hz.right_le
    omega
  cases h with
  | @scan z word hz hnext hread hword =>
      rcases hz with hz | rfl
      · exact hext.records (hclosed _ _ (.scan hz hnext hread hword))
      · exact records_scan hsel hc hx hnext hread hword
  | @foot z label hz hnext =>
      rcases hz with hz | rfl
      · exact hext.records (hclosed _ _ (.foot hz hnext))
      · exact records_foot hsel hc hx hnext
  | @complete p d hp hd hactive hpassive htree haddress hspan =>
      rcases hd with hd | rfl
      · rcases hp with hp | rfl
        · exact hext.records (hclosed _ _ (.complete hp hd hactive hpassive htree haddress hspan))
        · have hplain : d.leftAdjoined = false := by
            refine Bool.eq_false_iff.2 fun hadjoined => ?_
            have hlt := (hmeans hd).lt_of_leftAdjoined hsel hlex hadjoined
            have heq := hempty hd hspan
            omega
          exact records_complete_empty hsel hc hx hd.1 hpassive hplain htree haddress hspan
            (hempty hd hspan)
      · rcases hp with hp | rfl
        · exact records_complete_child hsel hc hx hp.1 hactive hpassive htree haddress hspan
        · simp [Item.isPassive, hactive] at hpassive
  | @substitution p d hp hd hnext hpassive hroot hinitial hother hspan =>
      rcases hd with hd | rfl
      · rcases hp with hp | rfl
        · exact hext.records (hclosed _ _
            (.substitution hp hd hnext hpassive hroot hinitial hother hspan))
        · have hv := hinv.valid_of_has hd.1
          have hlt := (hmeans hd).lt_of_isRootLayer hsel hlex hv hpassive hroot
          have heq := hempty hd hspan
          omega
      · rcases hp with hp | rfl
        · exact records_substitution hsel hc hx hp.1 hnext hpassive hroot hinitial hother hspan
        · exact absurd rfl hother
  | @right h a hh ha hhost hplain haux hspan =>
      rcases ha with ha | rfl
      · rcases hh with hh | rfl
        · exact hext.records (hclosed _ _ (.right hh ha hhost hplain haux hspan))
        · obtain ⟨hpassive, hroot, -⟩ := isFinishedAuxiliary_iff.1 haux
          have hv := hinv.valid_of_has ha.1
          have hlt := (hmeans ha).lt_of_isRootLayer hsel hlex hv hpassive hroot
          have heq := hempty ha hspan
          omega
      · rcases hh with hh | rfl
        · exact records_right hsel hc hx hh.1 hhost hplain haux hspan
        · have hsite := isAdjunctionSite_of_isFinishedAuxiliary haux
          rw [(isHost_iff.1 hhost).2.1] at hsite
          cases hsite
  | @left h a hh ha hhost haux hspan =>
      rcases hh with hh | rfl
      · rcases ha with ha | rfl
        · exact hext.records (hclosed _ _ (.left hh ha hhost haux hspan))
        · exact records_left_of_aux hsel hc hx hh.1 hhost haux hspan (hempty hh hspan.symm)
      · rcases ha with ha | rfl
        · exact records_left_of_host hsel hc hx ha.1 hhost haux hspan
        · have hsite := isAdjunctionSite_of_isFinishedAuxiliary haux
          rw [(isHost_iff.1 hhost).2.1] at hsite
          cases hsite

theorem closedUpTo_turn (hsel : sel.Sound) (hlex : sel.Lexicalised) {k i : Nat} {c : Chart W}
    {x : Item W} (hc : Reached sel starts input c) (hturn : c.turn k i = some x)
    (hclosed : ClosedUpTo input k i c) : ClosedUpTo input k (i + 1) (c.process input x) := by
  intro y why hstep
  obtain ⟨z, hz, hkey, -⟩ := hstep.exists_of_renewed
    (B := fun z => Done k i c z ∨ z = x) fun z hz => by
      rcases hz.of_turn hsel hc hturn with hold | ⟨ds, hnew⟩
      · exact ⟨z.derivations, Or.inl hold⟩
      · exact ⟨ds, Or.inr hnew⟩
  exact hkey ▸ records_of_step hsel hlex hc hturn hclosed hz

end Chart

namespace Grammar

/-- Whether every rule that can be selected has a word of its own. -/
def Lexicalised (g : Grammar W) : Prop :=
  ∀ r ∈ g.rules, r.anchors ≠ [] → r.HasTerminal

instance (g : Grammar W) : Decidable g.Lexicalised :=
  inferInstanceAs (Decidable (∀ r ∈ g.rules, r.anchors ≠ [] → r.HasTerminal))

theorem Lexicalised.select {g : Grammar W} (h : g.Lexicalised) (input : List String) :
    (g.select input).Lexicalised := by
  intro t ht
  obtain ⟨hrule, hanchors, -⟩ := g.mem_select ht
  exact h t.rule hrule hanchors

variable [One W] [Mul W]

/-- In the end all items had their turn. -/
theorem done_of_mem_parse (g : Grammar W) {input : List String} {x : Item W}
    (hx : x ∈ (g.parse input).items) : Chart.Done (input.length + 1) 0 (g.parse input) x := by
  have hinv := (g.reached_parse input).inv (g.sound_select input)
  exact ⟨hinv.filed.has_of_mem hx, Or.inl (Nat.lt_succ_of_le (hinv.valid x hx).right_le)⟩

theorem closedUpTo_parse (g : Grammar W) (hlex : g.Lexicalised) (input : List String) :
    Chart.ClosedUpTo input (input.length + 1) 0 (g.parse input) := by
  have hsel := g.sound_select input
  refine Chart.ofSelection_induction hsel (P := Chart.ClosedUpTo input) ?_ ?_ ?_
  · intro y why hstep
    obtain ⟨z, hz⟩ := hstep.exists_atHand
    exact absurd hz Chart.not_done_zero
  · exact fun k i c y hc hturn hclosed =>
      Chart.closedUpTo_turn hsel (hlex.select input) hc hturn hclosed
  · intro k c hc hclosed y why hstep
    exact hclosed y why (hstep.mono fun z hz => hz.of_next (hc.inv hsel).filed)

/-- The finished chart records every step between its items. -/
theorem records_of_step_parse (g : Grammar W) (hlex : g.Lexicalised) (input : List String)
    {x : Item W} {why : Derivation}
    (h : Chart.Step input (fun y => y ∈ (g.parse input).items) x why) :
    (g.parse input).Records x.key why :=
  g.closedUpTo_parse hlex input x why (h.mono fun _ => g.done_of_mem_parse)

theorem records_adjective_before_noun :
    ∃ h ∈ (adjectives.parse ["big", "dog"]).items, ∃ a ∈ (adjectives.parse ["big", "dog"]).items,
      (adjectives.parse ["big", "dog"]).Records (Chart.joined h a .left).key
        (.adjunction h.id a.id) := by
  have hh : 5 < (adjectives.parse ["big", "dog"]).items.size := by decide +kernel
  have ha : 3 < (adjectives.parse ["big", "dog"]).items.size := by decide +kernel
  refine ⟨_, Array.getElem_mem hh, _, Array.getElem_mem ha, ?_⟩
  refine records_of_step_parse adjectives (by decide) ["big", "dog"] ?_
  refine .left (Array.getElem_mem hh) (Array.getElem_mem ha) ?_ ?_ ?_ <;> decide +kernel +revert

end Grammar

end TreeInsertion
