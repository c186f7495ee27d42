import TreeInsertion.Proofs.Chart.Licence

/-!
# What the phases do

Each phase of the analysis is licensed, and while the items that end at `k` are
processed it adds items at `k` and `k + 1` and notes demands at `k` only.
-/

namespace TreeInsertion

namespace Chart

variable {W : Type} [One W] [Mul W] {sel : Selection W} {starts : SymbolSet}
  {input : List String} {c : Chart W}

/-! ## The phases of a turn -/

theorem phases_of_isPassive {x : Item W} (hpassive : x.isPassive = true) :
    phases input c x = finish c x := by
  have hnone : x.next? = none := Layer.entry?_eq_none_iff.2 (Item.isPassive_iff.1 hpassive)
  rw [phases, hnone]

theorem demandInner_of_some {x : Item W} {label : String} {i : Nat}
    (h : x.tree.rule.indexOf? x.nextAddress = some i) :
    demandInner x label =
      [demand label x.right (.inner x.tree ⟨i, Rule.lt_length_of_indexOf? h⟩),
        completeEmpty x ⟨i, Rule.lt_length_of_indexOf? h⟩] := by
  unfold demandInner
  split
  · simp_all
  · rename_i j hj
    cases hj.symm.trans h
    rfl

theorem demandInner_of_none {x : Item W} {label : String}
    (h : x.tree.rule.indexOf? x.nextAddress = none) : demandInner x label = [] := by
  unfold demandInner
  split
  · rfl
  · simp_all

/-- The phases of an item's turn, each with the case that it belongs to. -/
inductive PhaseOf (input : List String) (c : Chart W) (x : Item W) : Phase W → Prop where
  | scan {word : String} (hnext : x.next? = some ⟨.terminal, word⟩) :
      PhaseOf input c x (scan input x word)
  | passFoot {label : String} (hnext : x.next? = some ⟨.foot, label⟩) :
      PhaseOf input c x (passFoot x)
  | demandInner {label : String} {i : Nat} (hnext : x.next? = some ⟨.nonterminal, label⟩)
      (hi : x.tree.rule.indexOf? x.nextAddress = some i) :
      PhaseOf input c x
        (demand label x.right (.inner x.tree ⟨i, Rule.lt_length_of_indexOf? hi⟩))
  | completeEmpty {label : String} {i : Nat} (hnext : x.next? = some ⟨.nonterminal, label⟩)
      (hi : x.tree.rule.indexOf? x.nextAddress = some i) :
      PhaseOf input c x (completeEmpty x ⟨i, Rule.lt_length_of_indexOf? hi⟩)
  | demandSite {label : String} (hnext : x.next? = some ⟨.substitution, label⟩) :
      PhaseOf input c x (demand label x.right .site)
  | fillParents (hpassive : x.isPassive = true) (hroot : x.isRootLayer = false) :
      PhaseOf input c x (fillParents x)
  | fillSites (hpassive : x.isPassive = true) (hroot : x.isRootLayer = true)
      (hinitial : x.tree.isInitial = true) :
      PhaseOf input c x (fillSites x)
  | openRight {e : Entry} (hhost : isHost e.label x = true) (hlhs : x.current.lhs? = some e) :
      PhaseOf input c x fun c =>
        if x.leftAdjoined then [] else openAuxiliary e.label x.right .right c
  | takeLeft {e : Entry} (hhost : isHost e.label x = true) (hlhs : x.current.lhs? = some e) :
      PhaseOf input c x fun c =>
        ((c.itemsAt x.left).filter (isFinishedAuxiliary e.label .left)).map fun aux =>
          join x aux .left
  | joinRight (haux : isFinishedAuxiliary x.tree.root .right x = true) :
      PhaseOf input c x fun c =>
        ((c.itemsAt x.left).filter fun h => isHost x.tree.root h && !h.leftAdjoined).map fun h =>
          join h x .right
  | demandAgain {reason : Reason W} (haux : isFinishedAuxiliary x.tree.root .left x = true)
      (hreason : reason ∈ c.reasonsAt x.left x.tree.root) :
      PhaseOf input c x (demand x.tree.root x.right reason)
  | joinLeft (haux : isFinishedAuxiliary x.tree.root .left x = true) :
      PhaseOf input c x fun c =>
        ((c.itemsAt x.right).filter fun h => isHost x.tree.root h && h.left == x.right).map
          fun h => join h x .left

theorem phaseOf_of_mem_finish {x : Item W} (hpassive : x.isPassive = true) {phase : Phase W}
    (h : phase ∈ finish c x) : PhaseOf input c x phase := by
  unfold finish at h
  dsimp only at h
  rcases List.mem_append.1 h with hfill | hjoin
  · cases hroot : x.isRootLayer with
    | false =>
        rw [hroot] at hfill
        rw [List.mem_singleton.1 hfill]
        exact .fillParents hpassive hroot
    | true =>
        rw [hroot] at hfill
        cases hinitial : x.tree.isInitial with
        | false => simp [hinitial] at hfill
        | true =>
            rw [hinitial] at hfill
            rw [List.mem_singleton.1 hfill]
            exact .fillSites hpassive hroot hinitial
  · cases hsite : x.isAdjunctionSite with
    | true =>
        rw [hsite, if_pos rfl, joinToHost] at hjoin
        cases hlhs : x.current.lhs? with
        | none => simp [hlhs] at hjoin
        | some e =>
            have hhost : isHost e.label x = true :=
              isHost_iff.2 ⟨hpassive, hsite, Layer.hasLabel_iff.2 ⟨e, hlhs, rfl⟩⟩
            simp only [hlhs] at hjoin
            rcases List.mem_cons.1 hjoin with rfl | hjoin
            · exact .openRight hhost hlhs
            · rw [List.mem_singleton.1 hjoin]
              exact .takeLeft hhost hlhs
    | false =>
        rw [hsite, if_neg (by simp), joinToHosts] at hjoin
        have hroot : x.isRootLayer = true := by
          rw [Item.isAdjunctionSite, Bool.or_eq_false_iff] at hsite
          simpa using hsite.2
        cases hside : x.tree.side? with
        | none => simp [hside] at hjoin
        | some side =>
            have haux : isFinishedAuxiliary x.tree.root side x = true :=
              isFinishedAuxiliary_iff.2 ⟨hpassive, hroot, hside, rfl⟩
            cases side with
            | right =>
                simp only [hside] at hjoin
                rw [List.mem_singleton.1 hjoin]
                exact .joinRight haux
            | left =>
                simp only [hside] at hjoin
                rcases List.mem_append.1 hjoin with hagain | hjoin
                · obtain ⟨reason, hreason, rfl⟩ := List.mem_map.1 hagain
                  exact .demandAgain haux hreason
                · rw [List.mem_singleton.1 hjoin]
                  exact .joinLeft haux

theorem mem_phases {x : Item W} {phase : Phase W} :
    phase ∈ phases input c x ↔ PhaseOf input c x phase := by
  constructor
  · intro h
    unfold phases at h
    split at h
    · rename_i hnone
      exact phaseOf_of_mem_finish (Item.isPassive_iff.2 (Layer.entry?_eq_none_iff.1 hnone)) h
    · rename_i e hnext
      obtain ⟨role, label⟩ := e
      cases role with
      | terminal => exact List.mem_singleton.1 h ▸ .scan hnext
      | foot => exact List.mem_singleton.1 h ▸ .passFoot hnext
      | substitution => exact List.mem_singleton.1 h ▸ .demandSite hnext
      | nonterminal =>
          dsimp only at h
          cases hi : x.tree.rule.indexOf? x.nextAddress with
          | none =>
              rw [demandInner_of_none hi] at h
              cases h
          | some i =>
              rw [demandInner_of_some hi] at h
              rcases List.mem_cons.1 h with rfl | h
              · exact .demandInner hnext hi
              · exact List.mem_singleton.1 h ▸ .completeEmpty hnext hi
  · intro h
    cases h with
    | scan hnext => simp [phases, hnext]
    | passFoot hnext => simp [phases, hnext]
    | demandInner hnext hi => simp [phases, hnext, demandInner_of_some hi]
    | completeEmpty hnext hi => simp [phases, hnext, demandInner_of_some hi]
    | demandSite hnext => simp [phases, hnext]
    | fillParents hpassive hroot => simp [phases_of_isPassive hpassive, finish, hroot]
    | fillSites hpassive hroot hinitial =>
        simp [phases_of_isPassive hpassive, finish, hroot, hinitial]
    | openRight hhost hlhs =>
        obtain ⟨hpassive, hsite, -⟩ := isHost_iff.1 hhost
        simp [phases_of_isPassive hpassive, finish, hsite, joinToHost, hlhs]
    | takeLeft hhost hlhs =>
        obtain ⟨hpassive, hsite, -⟩ := isHost_iff.1 hhost
        simp [phases_of_isPassive hpassive, finish, hsite, joinToHost, hlhs]
    | joinRight haux =>
        obtain ⟨hpassive, -, hside, -⟩ := isFinishedAuxiliary_iff.1 haux
        have hsite := isAdjunctionSite_of_isFinishedAuxiliary haux
        simp [phases_of_isPassive hpassive, finish, hsite, joinToHosts, hside]
    | demandAgain haux hreason =>
        obtain ⟨hpassive, -, hside, -⟩ := isFinishedAuxiliary_iff.1 haux
        have hsite := isAdjunctionSite_of_isFinishedAuxiliary haux
        simp only [phases_of_isPassive hpassive, finish, hsite, joinToHosts, hside]
        exact List.mem_append_right _ (List.mem_append_left _ (List.mem_map_of_mem hreason))
    | joinLeft haux =>
        obtain ⟨hpassive, -, hside, -⟩ := isFinishedAuxiliary_iff.1 haux
        have hsite := isAdjunctionSite_of_isFinishedAuxiliary haux
        simp [phases_of_isPassive hpassive, finish, hsite, joinToHosts, hside]

/-! ## What a phase may do -/

def LicensedAt (sel : Selection W) (input : List String) (k : Nat) (c : Chart W)
    (a : Action W) : Prop :=
  Licensed sel input c a ∧ a.At k

/-! ## Demands -/

omit [One W] [Mul W] in
theorem mem_openRoots {trees : List (AnchoredTree W)} {pos : Nat} {a : Action W} :
    a ∈ openRoots trees pos ↔
      ∃ t ∈ trees, pos ≤ t.anchorPos ∧ ∃ h : 0 < t.rule.layers.length,
        a = .add (Item.opened t ⟨0, h⟩ pos t.rule.weight) .predicted := by
  simp only [openRoots, List.mem_filterMap, List.mem_filter, decide_eq_true_eq,
    Option.map_eq_some_iff]
  constructor
  · rintro ⟨t, ⟨ht, hpos⟩, x, hx, rfl⟩
    unfold Item.atRoot? at hx
    split at hx
    · cases hx
      exact ⟨t, ht, hpos, ‹_›, rfl⟩
    · cases hx
  · rintro ⟨t, ht, hpos, h, rfl⟩
    exact ⟨t, ⟨ht, hpos⟩, _, by rw [Item.atRoot?, dif_pos h], rfl⟩

theorem licensedAt_openRoots (hsel : sel.Sound) {trees : List (AnchoredTree W)} {pos : Nat}
    (htrees : ∀ t ∈ trees, t ∈ sel.trees) (hpos : pos ≤ input.length) {a : Action W}
    (ha : a ∈ openRoots trees pos) : LicensedAt sel input pos c a := by
  obtain ⟨t, ht, hanchor, h, rfl⟩ := mem_openRoots.1 ha
  refine ⟨Or.inl ⟨rfl, htrees t ht, rfl, rfl, hpos, rfl, fun _ => hanchor, ?_⟩, Or.inl rfl⟩
  obtain ⟨l, hl, haddress, -⟩ := hsel.exists_root (htrees t ht)
  have hroot : (Item.opened t ⟨0, h⟩ pos t.rule.weight).isRootLayer = true := by
    rw [Item.isRootLayer_iff, ← haddress]
    rw [List.head?_eq_getElem?, List.getElem?_eq_getElem h] at hl
    exact congrArg Layer.address (Option.some.inj hl)
  rw [if_pos hroot]
  rfl

theorem licensedAt_openAuxiliary (hsel : sel.Sound) (hc : c.selection = sel) {label : String}
    {pos : Nat} (hpos : pos ≤ input.length) {side : Side} {a : Action W}
    (ha : a ∈ openAuxiliary label pos side c) : LicensedAt sel input pos c a := by
  refine licensedAt_openRoots hsel ?_ hpos ha
  intro t ht
  rw [hc] at ht
  exact (hsel.mem_auxiliary.1 (List.mem_filter.1 ht).1).1

theorem licensedAt_demand (hsel : sel.Sound) (hc : c.selection = sel) {label : String}
    {pos : Nat} {reason : Reason W} (hd : Demand.Valid sel input.length ⟨pos, label, reason⟩)
    {a : Action W} (ha : a ∈ demand label pos reason c) : LicensedAt sel input pos c a := by
  unfold demand at ha
  dsimp only at ha
  split at ha
  · cases ha
  · rcases List.mem_append.1 ha with hmem | hmem
    · rcases List.mem_cons.1 hmem with rfl | hopen
      · exact ⟨hd, rfl⟩
      · cases reason with
        | inner t i =>
            obtain ⟨ht, hroot, -⟩ := hd.inner t i rfl
            rw [openReason, List.mem_singleton] at hopen
            subst hopen
            have hinner : (Item.opened t i pos (One.one : W)).isRootLayer = false :=
              Bool.eq_false_iff.2 fun h => hroot (Item.isRootLayer_iff.1 h)
            refine ⟨Or.inl ⟨rfl, ht, rfl, rfl, hd.pos_le, rfl, ?_, ?_⟩, Or.inl rfl⟩
            · simp [hinner]
            · rw [hinner]
              rfl
        | site =>
            refine licensedAt_openRoots hsel ?_ hd.pos_le hopen
            intro t ht
            rw [hc] at ht
            exact (hsel.mem_initial.1 ht).1
    · split at hmem
      · exact licensedAt_openAuxiliary hsel hc hd.pos_le hmem
      · cases hmem

/-! ## Active items -/

section Active

variable {x : Item W}

theorem licensedAt_scan (hx : c.Has x) {word : String} (hnext : x.next? = some ⟨.terminal, word⟩)
    {a : Action W} (ha : a ∈ scan input x word c) : LicensedAt sel input x.right c a := by
  unfold scan at ha
  split at ha
  · rename_i hcond
    rw [Bool.and_eq_true, beq_iff_eq] at hcond
    rw [List.mem_singleton] at ha
    subst ha
    have hactive := Item.isActive_of_next? hnext
    refine ⟨Or.inr (.scan hx hnext hcond.1 hcond.2), Or.inr ?_⟩
    rw [Item.advanceTo_eq hactive]
  · cases ha

theorem licensedAt_passFoot (hx : c.Has x) {label : String}
    (hnext : x.next? = some ⟨.foot, label⟩) {a : Action W} (ha : a ∈ passFoot x c) :
    LicensedAt sel input x.right c a := by
  rw [passFoot, List.mem_singleton] at ha
  subst ha
  refine ⟨Or.inr (.foot hx hnext), Or.inl ?_⟩
  rw [Item.advanceTo_eq (Item.isActive_of_next? hnext)]

theorem licensedAt_completeEmpty (hinv : c.Inv sel starts input.length) (hsel : sel.Sound)
    (hx : c.Has x) {label : String} (hnext : x.next? = some ⟨.nonterminal, label⟩)
    {i : Nat} (hi : x.tree.rule.indexOf? x.nextAddress = some i) {a : Action W}
    (ha : a ∈ completeEmpty x ⟨i, Rule.lt_length_of_indexOf? hi⟩ c) :
    LicensedAt sel input x.right c a := by
  unfold completeEmpty at ha
  split at ha
  · cases ha
  · rename_i child hfind
    obtain ⟨hmem, hkey⟩ := hinv.filed.find?_eq_some_iff.1 hfind
    simp only [Item.key, Item.Key.mk.injEq] at hkey
    obtain ⟨htree, hlayer, hdot, hleft, hright, -⟩ := hkey
    have hsame := hsel.eq_of_id_eq (hinv.valid child hmem).tree (hinv.valid_of_has hx).tree htree
    have hcurrent :=
      Item.current_eq (i := ⟨i, Rule.lt_length_of_indexOf? hi⟩) hsame hlayer
    rw [List.mem_singleton] at ha
    subst ha
    have hactive := Item.isActive_of_next? hnext
    have hend : child.dot = child.current.length := by rw [hcurrent, hdot]
    have hpassive : child.isPassive = true := Item.isPassive_iff.2 (Nat.le_of_eq hend.symm)
    refine ⟨Or.inr (.complete hx (hinv.filed.has_of_mem hmem) hactive hpassive htree ?_ hleft),
      Or.inl ?_⟩
    · rw [hcurrent]
      exact Rule.address_of_indexOf? hi
    · rw [Item.advanceTo_eq hactive]
      exact hright

omit [One W] [Mul W] in
theorem demand_valid_inner (hsel : sel.Sound) {pos : Nat} (hx : x.tree ∈ sel.trees)
    (hpos : pos ≤ input.length) {label : String}
    (hnext : x.next? = some ⟨.nonterminal, label⟩) {i : Nat}
    (hi : x.tree.rule.indexOf? x.nextAddress = some i) :
    Demand.Valid sel input.length
      ⟨pos, label, .inner x.tree ⟨i, Rule.lt_length_of_indexOf? hi⟩⟩ := by
  refine ⟨hpos, ?_⟩
  intro t j heq
  cases heq
  obtain ⟨hroot, e, hlhs, hentry⟩ := (hsel.checked x.tree hx).site_of_child x.current_mem
    (List.getElem_mem _) (Rule.address_of_indexOf? hi)
  rw [Item.next?] at hnext
  rw [hnext] at hentry
  cases hentry
  exact ⟨hx, hroot, Layer.hasLabel_iff.2 ⟨e, hlhs, rfl⟩⟩

end Active

/-! ## Finished items -/

section Finished

variable {x : Item W}

theorem licensedAt_fillParents (hinv : c.Inv sel starts input.length) (hsel : sel.Sound)
    (hx : c.Has x) (hpassive : x.isPassive = true) {a : Action W} (ha : a ∈ fillParents x c) :
    LicensedAt sel input x.right c a := by
  simp only [fillParents, List.mem_map, List.mem_filter, hinv.filed.mem_itemsAt,
    Bool.and_eq_true, beq_iff_eq, Item.isAbove] at ha
  obtain ⟨p, ⟨⟨hp, hspan⟩, ⟨htree, habove⟩, hdot⟩, rfl⟩ := ha
  have haddress : x.current.address = p.nextAddress :=
    Address.eq_child_of_parent? habove hdot.symm
  obtain ⟨-, e, -, hnext⟩ :=
    (hinv.valid p hp).next?_of_child hsel (hinv.valid_of_has hx) htree haddress
  have hactive := Item.isActive_of_next? hnext
  refine ⟨Or.inr (.complete (hinv.filed.has_of_mem hp) hx hactive hpassive htree.symm haddress
    hspan.symm), Or.inl ?_⟩
  rw [Item.advanceTo_eq hactive]

theorem licensedAt_fillSites (hinv : c.Inv sel starts input.length) (hx : c.Has x)
    (hpassive : x.isPassive = true) (hroot : x.isRootLayer = true)
    (hinitial : x.tree.isInitial = true) {a : Action W} (ha : a ∈ fillSites x c) :
    LicensedAt sel input x.right c a := by
  simp only [fillSites, List.mem_map, List.mem_filter, hinv.filed.mem_itemsAt, Bool.and_eq_true,
    beq_iff_eq, bne_iff_ne] at ha
  obtain ⟨p, ⟨⟨hp, hspan⟩, hother, hnext⟩, rfl⟩ := ha
  refine ⟨Or.inr (.substitution (hinv.filed.has_of_mem hp) hx hnext hpassive hroot hinitial
    hother hspan.symm), Or.inl ?_⟩
  rw [Item.advanceTo_eq (Item.isActive_of_next? hnext)]

theorem licensedAt_openRight (hinv : c.Inv sel starts input.length) (hsel : sel.Sound)
    (hx : c.Has x) {label : String} {a : Action W}
    (ha : a ∈ if x.leftAdjoined then [] else openAuxiliary label x.right .right c) :
    LicensedAt sel input x.right c a := by
  split at ha
  · cases ha
  · exact licensedAt_openAuxiliary hsel hinv.selection (hinv.valid_of_has hx).right_le ha

theorem licensedAt_takeLeft (hinv : c.Inv sel starts input.length) (hx : c.Has x)
    {label : String} (hhost : isHost label x = true) {a : Action W}
    (ha : a ∈ ((c.itemsAt x.left).filter (isFinishedAuxiliary label .left)).map fun aux =>
      join x aux .left) : LicensedAt sel input x.right c a := by
  simp only [List.mem_map, List.mem_filter, hinv.filed.mem_itemsAt] at ha
  obtain ⟨aux, ⟨⟨haux, hspan⟩, hfinished⟩, rfl⟩ := ha
  cases (isFinishedAuxiliary_iff.1 hfinished).2.2.2
  exact ⟨Or.inr (.left hx (hinv.filed.has_of_mem haux) hhost hfinished hspan), Or.inl rfl⟩

theorem licensedAt_joinRight (hinv : c.Inv sel starts input.length) (hx : c.Has x)
    (haux : isFinishedAuxiliary x.tree.root .right x = true) {a : Action W}
    (ha : a ∈ ((c.itemsAt x.left).filter fun h => isHost x.tree.root h && !h.leftAdjoined).map
      fun h => join h x .right) : LicensedAt sel input x.right c a := by
  simp only [List.mem_map, List.mem_filter, hinv.filed.mem_itemsAt, Bool.and_eq_true,
    Bool.not_eq_true'] at ha
  obtain ⟨h, ⟨⟨hh, hspan⟩, hhost, hplain⟩, rfl⟩ := ha
  exact ⟨Or.inr (.right (hinv.filed.has_of_mem hh) hx hhost hplain haux hspan.symm), Or.inl rfl⟩

theorem licensedAt_joinLeft (hinv : c.Inv sel starts input.length) (hx : c.Has x)
    (haux : isFinishedAuxiliary x.tree.root .left x = true) {a : Action W}
    (ha : a ∈ ((c.itemsAt x.right).filter fun h =>
      isHost x.tree.root h && h.left == x.right).map fun h => join h x .left) :
    LicensedAt sel input x.right c a := by
  simp only [List.mem_map, List.mem_filter, hinv.filed.mem_itemsAt, Bool.and_eq_true,
    beq_iff_eq] at ha
  obtain ⟨h, ⟨⟨hh, hend⟩, hhost, hspan⟩, rfl⟩ := ha
  exact ⟨Or.inr (.left (hinv.filed.has_of_mem hh) hx hhost haux hspan.symm), Or.inl hend⟩

end Finished

/-! ## All phases -/

omit [One W] [Mul W] in
theorem mem_reasonsAt {pos : Nat} {label : String} {reason : Reason W} :
    reason ∈ c.reasonsAt pos label ↔ ⟨pos, label, reason⟩ ∈ c.demands := by
  rw [reasonsAt, List.mem_filterMap]
  constructor
  · rintro ⟨d, hd, hsome⟩
    split at hsome
    · rename_i hwhere
      obtain ⟨rfl, rfl⟩ := hwhere
      cases hsome
      exact hd
    · cases hsome
  · intro hd
    exact ⟨_, hd, if_pos ⟨rfl, rfl⟩⟩

/--
Every action that an item gives rise to is licensed, and concerns the position of the item.
The demands that a left auxiliary tree repeats were looked up in an earlier chart.
-/
theorem licensedAt_of_mem_phases (hsel : sel.Sound) {c₀ : Chart W} {x : Item W}
    (hdemands : ∀ d ∈ c₀.demands, d.Valid sel input.length)
    (hinv : c.Inv sel starts input.length) (hx : c.Has x)
    {phase : Phase W} (hphase : phase ∈ phases input c₀ x) {a : Action W} (ha : a ∈ phase c) :
    LicensedAt sel input x.right c a := by
  have hv := hinv.valid_of_has hx
  cases mem_phases.1 hphase with
  | scan hnext => exact licensedAt_scan hx hnext ha
  | passFoot hnext => exact licensedAt_passFoot hx hnext ha
  | demandInner hnext hi =>
      have hvalid := demand_valid_inner hsel hv.tree hv.right_le hnext hi
      exact licensedAt_demand hsel hinv.selection hvalid ha
  | completeEmpty hnext hi =>
      exact licensedAt_completeEmpty hinv hsel hx hnext hi ha
  | demandSite hnext =>
      exact licensedAt_demand hsel hinv.selection ⟨hv.right_le, by simp⟩ ha
  | fillParents hpassive _ => exact licensedAt_fillParents hinv hsel hx hpassive ha
  | fillSites hpassive hroot hinitial =>
      exact licensedAt_fillSites hinv hx hpassive hroot hinitial ha
  | openRight _ _ => exact licensedAt_openRight hinv hsel hx ha
  | takeLeft hhost _ => exact licensedAt_takeLeft hinv hx hhost ha
  | joinRight haux => exact licensedAt_joinRight hinv hx haux ha
  | demandAgain haux hreason =>
      have hold := hdemands _ (mem_reasonsAt.1 hreason)
      exact licensedAt_demand hsel hinv.selection ⟨hv.right_le, hold.inner⟩ ha
  | joinLeft haux => exact licensedAt_joinLeft hinv hx haux ha

end Chart

end TreeInsertion
