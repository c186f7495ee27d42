import TreeInsertion.Proofs.Chart.Demands

/-!
# What the analysis accepts

In a chart in which nothing is left to be done, an item stands for every reading of
a layer that was opened.  An input is accepted exactly if an initial tree with a
start symbol reads it.
-/

namespace TreeInsertion

variable {W : Type}

namespace Chart

/-- Whether the chart holds an item of the layer with the dot, over the span. -/
def Finds (c : Chart W) (t : AnchoredTree W) (l : Layer) (dot left right : Nat)
    (adjoined : Bool) : Prop :=
  ∃ x ∈ c.items, x.tree = t ∧ x.current = l ∧ x.dot = dot ∧ x.left = left ∧ x.right = right ∧
    x.leftAdjoined = adjoined

section Finds

variable {sel : Selection W} {starts : SymbolSet} {n : Nat} {c : Chart W}

theorem finds_of_records (hsel : sel.Sound) (hinv : c.Inv sel starts n) {x : Item W}
    {why : Derivation} (hx : x.tree ∈ sel.trees) (h : c.Records x.key why) :
    c.Finds x.tree x.current x.dot x.left x.right x.leftAdjoined := by
  obtain ⟨y, hy, hkey, -⟩ := h
  simp only [Item.key, Item.Key.mk.injEq] at hkey
  obtain ⟨htree, hlayer, hdot, hleft, hright, hadjoined⟩ := hkey
  have hsame := hsel.eq_of_id_eq (hinv.valid y hy).tree hx htree
  exact ⟨y, hy, hsame, Item.current_eq hsame hlayer, hdot, hleft, hright, hadjoined⟩

/-- The cell that an active item moves on to. -/
theorem finds_of_records_advanceTo (hsel : sel.Sound) (hinv : c.Inv sel starts n) {x : Item W}
    (hx : x ∈ c.items) (hactive : x.isActive = true) {right : Nat} {weight : W} {why : Derivation}
    (h : c.Records (x.advanceTo right weight).key why) :
    c.Finds x.tree x.current (x.dot + 1) x.left right false := by
  have hv := hinv.valid x hx
  rw [Item.advanceTo_eq hactive] at h
  have hfinds := finds_of_records hsel hinv
    (x := { x with dot := x.dot + 1, right := right, weight := weight }) hv.tree h
  exact hv.plain_of_isActive hactive ▸ hfinds

theorem finds_of_openRoots (hsel : sel.Sound) (hinv : c.Inv sel starts n)
    {trees : List (AnchoredTree W)} {pos : Nat} (h : ∀ a ∈ openRoots trees pos, c.Shows a)
    {t : AnchoredTree W} (ht : t ∈ trees) (hmem : t ∈ sel.trees) (hstart : t.MayStart pos)
    {l : Layer} (hroot : t.rule.layers.head? = some l) : c.Finds t l 1 pos pos false := by
  have hlayers : 0 < t.rule.layers.length := by
    cases hcases : t.rule.layers with
    | nil => simp [hcases] at hroot
    | cons _ _ => simp
  have hshown := h _ (mem_openRoots.2 ⟨t, ht, hstart, hlayers, rfl⟩)
  have hfinds := finds_of_records hsel hinv hmem hshown
  rw [List.head?_eq_getElem?, List.getElem?_eq_getElem hlayers] at hroot
  exact Option.some.inj hroot ▸ hfinds

theorem finds_of_openAuxiliary (hsel : sel.Sound) (hinv : c.Inv sel starts n) {label : String}
    {pos : Nat} {side : Side} (h : ∀ a ∈ openAuxiliary label pos side c, c.Shows a)
    {u : AnchoredTree W} (hu : u ∈ sel.trees) (hside : u.side? = some side)
    (hlabel : u.root = label) (hstart : u.MayStart pos) {m : Layer}
    (hroot : u.rule.layers.head? = some m) : c.Finds u m 1 pos pos false := by
  have hauxiliary : u.rule.isAuxiliary = true := by
    have hinitial := Rule.isInitial_of_side? hside
    simpa [Rule.isInitial] using hinitial
  refine finds_of_openRoots hsel hinv h (List.mem_filter.2 ⟨?_, by simp [hside]⟩) hu hstart hroot
  rw [hinv.selection]
  exact hsel.mem_auxiliary.2 ⟨hu, hauxiliary, hlabel⟩

theorem isHost_of_isSite {x : Item W} {label : String} (hdot : x.dot = x.current.length)
    (hsite : x.tree.IsSite x.current) (hlabel : x.current.hasLabel label = true) :
    isHost label x = true := by
  refine isHost_iff.2 ⟨Item.isPassive_iff.2 (Nat.le_of_eq hdot.symm), ?_, hlabel⟩
  rcases hsite with hinitial | hroot
  · simp [Item.isAdjunctionSite, hinitial]
  · have hinner : x.isRootLayer = false :=
      Bool.eq_false_iff.2 fun h => hroot (Item.isRootLayer_iff.1 h)
    simp [Item.isAdjunctionSite, hinner]

theorem isFinishedAuxiliary_of_head? (hsel : sel.Sound) {x : Item W} {side : Side}
    (hx : x.tree ∈ sel.trees) (hroot : x.tree.rule.layers.head? = some x.current)
    (hdot : x.dot = x.current.length) (hside : x.tree.side? = some side) :
    isFinishedAuxiliary x.tree.root side x = true :=
  isFinishedAuxiliary_iff.2 ⟨Item.isPassive_iff.2 (Nat.le_of_eq hdot.symm),
    (Item.isRootLayer_iff_head? hsel hx).2 hroot, hside, rfl⟩

end Finds

/-! ## Demanded layers -/

def Asks (sel : Selection W) (d : Demand W) (t : AnchoredTree W) (l : Layer) : Prop :=
  match d.reason with
  | .inner u i => t = u ∧ l = u.rule.layers[i]
  | .site => t ∈ sel.trees ∧ t.isInitial = true ∧ t.root = d.label ∧
      t.rule.layers.head? = some l

section Saturated

variable [One W] [Mul W] {sel : Selection W} {starts : SymbolSet} {input : List String}
  {c : Chart W}

namespace Saturated

/-- What is in demand has been opened. -/
theorem finds_of_asks (hc : c.Saturated sel starts input) (hsel : sel.Sound) {d : Demand W}
    (hd : d ∈ c.demands) {t : AnchoredTree W} {l : Layer} (h : Asks sel d t l)
    (hstart : l.address = Address.root → t.MayStart d.pos) : c.Finds t l 1 d.pos d.pos false := by
  have hopened := (hc.answered d hd).reason
  obtain ⟨pos, label, reason⟩ := d
  cases reason with
  | inner u i =>
      obtain ⟨rfl, rfl⟩ := h
      have hvalid := (hc.inv.demands _ hd).inner t i rfl
      exact finds_of_records hsel hc.inv hvalid.1 (hopened _ (List.mem_singleton_self _))
  | site =>
      obtain ⟨ht, hinitial, hlabel, hroot⟩ := h
      have haddress := ((hsel.head?_eq_some_iff ht).1 hroot).2
      refine finds_of_openRoots hsel hc.inv hopened ?_ ht (hstart haddress) hroot
      rw [hc.inv.selection]
      exact hsel.mem_initial.2 ⟨ht, hinitial, hlabel⟩

theorem finds_complete (hc : c.Saturated sel starts input) (hsel : sel.Sound)
    {t : AnchoredTree W} {l m : Layer} {d i j k : Nat} {label : String} {adjoined : Bool}
    (hp : c.Finds t l d i j false) (hentry : l.entry? d = some ⟨.nonterminal, label⟩)
    (hlayer : t.rule.layer? (l.address.child d) = some m)
    (hd : c.Finds t m m.length j k adjoined) : c.Finds t l (d + 1) i k false := by
  obtain ⟨p, hp, rfl, rfl, rfl, rfl, rfl, -⟩ := hp
  obtain ⟨x, hx, htree, rfl, hdot, hleft, rfl, -⟩ := hd
  have hactive : p.isActive = true := Item.isActive_of_next? hentry
  have hpassive : x.isPassive = true := Item.isPassive_iff.2 (Nat.le_of_eq hdot.symm)
  exact finds_of_records_advanceTo hsel hc.inv hp hactive (hc.records _ _ (.complete hp hx hactive
    hpassive (congrArg AnchoredTree.id htree) (Rule.mem_of_layer? hlayer).2 hleft))

theorem finds_substitution (hc : c.Saturated sel starts input) (hsel : sel.Sound)
    {t u : AnchoredTree W} {l m : Layer} {d i j k : Nat} {adjoined : Bool}
    (hp : c.Finds t l d i j false) (hentry : l.entry? d = some ⟨.substitution, u.root⟩)
    (hu : u ∈ sel.trees) (hinitial : u.isInitial = true) (hother : t.id ≠ u.id)
    (hroot : u.rule.layers.head? = some m) (hd : c.Finds u m m.length j k adjoined) :
    c.Finds t l (d + 1) i k false := by
  obtain ⟨p, hp, rfl, rfl, rfl, rfl, rfl, -⟩ := hp
  obtain ⟨x, hx, rfl, rfl, hdot, hleft, rfl, -⟩ := hd
  have hpassive : x.isPassive = true := Item.isPassive_iff.2 (Nat.le_of_eq hdot.symm)
  have hrootLayer := (Item.isRootLayer_iff_head? hsel hu).2 hroot
  exact finds_of_records_advanceTo hsel hc.inv hp (Item.isActive_of_next? hentry) (hc.records _ _
    (.substitution hp hx hentry hpassive hrootLayer hinitial hother hleft))

/-- A host moves on behind a right auxiliary tree. -/
theorem finds_behind (hc : c.Saturated sel starts input) (hsel : sel.Sound)
    {t u : AnchoredTree W} {l m : Layer} {i j k : Nat} (hsite : t.IsSite l)
    (hlabel : l.hasLabel u.root = true) (hside : u.side? = some .right)
    (hu : u ∈ sel.trees) (hroot : u.rule.layers.head? = some m)
    (hh : c.Finds t l l.length i j false) (ha : c.Finds u m m.length j k false) :
    c.Finds t l l.length i k false := by
  obtain ⟨h, hh, rfl, rfl, hdot, rfl, rfl, hplain⟩ := hh
  obtain ⟨a, ha, rfl, rfl, hdot', hleft, rfl, -⟩ := ha
  have hrecords := hc.records _ _ (.right hh ha (isHost_of_isSite hdot hsite hlabel) hplain
    (isFinishedAuxiliary_of_head? hsel hu hroot hdot' hside) hleft)
  have hfinds := finds_of_records hsel hc.inv (x := joined h a .right)
    (hc.inv.valid h hh).tree hrecords
  rw [← hdot, ← hplain]
  exact hfinds

/-- A host moves its start before a left auxiliary tree. -/
theorem finds_before (hc : c.Saturated sel starts input) (hsel : sel.Sound)
    {t u : AnchoredTree W} {l m : Layer} {i j k : Nat} {adjoined : Bool} (hsite : t.IsSite l)
    (hlabel : l.hasLabel u.root = true) (hside : u.side? = some .left)
    (hu : u ∈ sel.trees) (hroot : u.rule.layers.head? = some m)
    (hh : c.Finds t l l.length j k adjoined) (ha : c.Finds u m m.length i j false) :
    c.Finds t l l.length i k true := by
  obtain ⟨h, hh, rfl, rfl, hdot, rfl, rfl, -⟩ := hh
  obtain ⟨a, ha, rfl, rfl, hdot', rfl, hright, -⟩ := ha
  have hrecords := hc.records _ _ (.left hh ha (isHost_of_isSite hdot hsite hlabel)
    (isFinishedAuxiliary_of_head? hsel hu hroot hdot' hside) hright)
  have hfinds := finds_of_records hsel hc.inv (x := joined h a .left)
    (hc.inv.valid h hh).tree hrecords
  rw [← hdot]
  exact hfinds

/-- Behind a host stand the right auxiliary trees that its turn has opened. -/
theorem finds_opened_behind (hc : c.Saturated sel starts input) (hsel : sel.Sound)
    {t u : AnchoredTree W} {l m : Layer} {i j : Nat} (hsite : t.IsSite l)
    (hlabel : l.hasLabel u.root = true) (hside : u.side? = some .right) (hu : u ∈ sel.trees)
    (hroot : u.rule.layers.head? = some m) (hh : c.Finds t l l.length i j false)
    (hstart : u.MayStart j) : c.Finds u m 1 j j false := by
  obtain ⟨h, hh, rfl, rfl, hdot, rfl, rfl, hplain⟩ := hh
  have hopened := (hc.heard h hh).behind u.root (isHost_of_isSite hdot hsite hlabel) hplain
  exact finds_of_openAuxiliary hsel hc.inv hopened hu hside rfl hstart hroot

/-- A left auxiliary tree has repeated the demands at its start. -/
theorem mem_demands_again (hc : c.Saturated sel starts input) (hsel : sel.Sound)
    {u : AnchoredTree W} {m : Layer} {i j : Nat} {reason : Reason W}
    (hside : u.side? = some .left) (hu : u ∈ sel.trees) (hroot : u.rule.layers.head? = some m)
    (ha : c.Finds u m m.length i j false) (hd : ⟨i, u.root, reason⟩ ∈ c.demands) :
    ⟨j, u.root, reason⟩ ∈ c.demands := by
  obtain ⟨a, ha, rfl, rfl, hdot, rfl, rfl, -⟩ := ha
  exact (hc.heard a ha).again (isFinishedAuxiliary_of_head? hsel hu hroot hdot hside) reason hd

theorem mem_demands_site (hc : c.Saturated sel starts input) {t : AnchoredTree W} {l : Layer}
    {d i j : Nat} {label : String} (hp : c.Finds t l d i j false)
    (hentry : l.entry? d = some ⟨.substitution, label⟩) : ⟨j, label, .site⟩ ∈ c.demands := by
  obtain ⟨p, hp, rfl, rfl, rfl, rfl, rfl, -⟩ := hp
  exact (hc.heard p hp).site label hentry

theorem exists_demand_inner (hc : c.Saturated sel starts input) (hsel : sel.Sound)
    {t : AnchoredTree W} {l m : Layer} {d i j : Nat} {label : String}
    (hp : c.Finds t l d i j false) (hentry : l.entry? d = some ⟨.nonterminal, label⟩)
    (hlayer : t.rule.layer? (l.address.child d) = some m) :
    ∃ reason : Reason W, ⟨j, label, reason⟩ ∈ c.demands ∧
      (∀ pos, Asks sel ⟨pos, label, reason⟩ t m) ∧ m ∈ t.rule.layers ∧ t.IsSite m ∧
        m.hasLabel label = true := by
  obtain ⟨p, hp, rfl, rfl, rfl, rfl, rfl, -⟩ := hp
  have hchecked := hsel.checked p.tree (hc.inv.valid p hp).tree
  obtain ⟨hm, haddress⟩ := Rule.mem_of_layer? hlayer
  obtain ⟨hroot, e, hlhs, hentry'⟩ := hchecked.site_of_child p.current_mem hm haddress
  rw [hentry] at hentry'
  cases hentry'
  obtain ⟨k, hk⟩ : ∃ k, p.tree.rule.indexOf? p.nextAddress = some k := by
    refine Option.ne_none_iff_exists'.1 fun hnone => ?_
    have hnone := Rule.indexOf?_eq_none hnone
    rw [Item.nextAddress, hlayer] at hnone
    cases hnone
  have hsame := hchecked.eq_of_address_eq hm (List.getElem_mem (Rule.lt_length_of_indexOf? hk))
    (haddress.trans (Rule.address_of_indexOf? hk).symm)
  exact ⟨_, (hc.heard p hp).inner e.label k hentry hk, fun _ => ⟨rfl, hsame⟩, hm, Or.inr hroot,
    Layer.hasLabel_iff.2 ⟨e, hlhs, rfl⟩⟩

end Saturated

/-! ## Completeness -/

/--
Whether the chart leads past auxiliary trees on a span: right ones extend the hosts that
end before them, and left ones pass demands on and the start of the hosts back.
-/
def Passes (c : Chart W) : Side → String → Nat → Nat → Prop
  | .right, label, i, j => ∀ t l k, t.IsSite l → l.hasLabel label = true →
      c.Finds t l l.length k i false → c.Finds t l l.length k j false
  | .left, label, i, j => ∀ reason, ⟨i, label, reason⟩ ∈ c.demands →
      ⟨j, label, reason⟩ ∈ c.demands ∧ ∀ t l k adjoined, t.IsSite l → l.hasLabel label = true →
        c.Finds t l l.length j k adjoined → ∃ adjoined', c.Finds t l l.length i k adjoined'

mutual

theorem finds_of_beforeDot (hc : c.Saturated sel starts input) (hsel : sel.Sound)
    {t : AnchoredTree W} {l : Layer} {d i j : Nat} (ht : t ∈ sel.trees) (hl : l ∈ t.rule.layers) :
    Reading.BeforeDot sel input AnchoredTree.MayStart t l d i j → c.Finds t l 1 i i false →
      c.Finds t l d i j false
  | .start, h => h
  | .word before hentry hread hword, h => by
      obtain ⟨x, hx, rfl, rfl, rfl, rfl, rfl, -⟩ := finds_of_beforeDot hc hsel ht hl before h
      exact finds_of_records_advanceTo hsel hc.inv hx (Item.isActive_of_next? hentry)
        (hc.records _ _ (.scan hx hentry hread hword))
  | .foot before hentry, h => by
      obtain ⟨x, hx, rfl, rfl, rfl, rfl, rfl, -⟩ := finds_of_beforeDot hc hsel ht hl before h
      exact finds_of_records_advanceTo hsel hc.inv hx (Item.isActive_of_next? hentry)
        (hc.records _ _ (.foot hx hentry))
  | .inner before hentry hlayer node, h => by
      have hp := finds_of_beforeDot hc hsel ht hl before h
      obtain ⟨reason, hd, hasks, hm, hsite, hlabel⟩ := hc.exists_demand_inner hsel hp hentry hlayer
      obtain ⟨adjoined, hnode⟩ := finds_of_full hc hsel ht hm hsite hlabel node hd hasks
      exact hc.finds_complete hsel hp hentry hlayer hnode
  | .site before hentry hu hinitial hother hroot node, h => by
      have hp := finds_of_beforeDot hc hsel ht hl before h
      have hd := hc.mem_demands_site hp hentry
      obtain ⟨adjoined, hnode⟩ := finds_of_full hc hsel hu (List.mem_of_mem_head? hroot)
        (Or.inl hinitial) (hsel.hasLabel_of_head? hu hroot) node hd
        fun _ => ⟨hu, hinitial, rfl, hroot⟩
      exact hc.finds_substitution hsel hp hentry hu hinitial hother hroot hnode

theorem finds_of_bare (hc : c.Saturated sel starts input) (hsel : sel.Sound)
    {t : AnchoredTree W} {l : Layer} {i j : Nat} (ht : t ∈ sel.trees) (hl : l ∈ t.rule.layers) :
    Reading.Bare sel input AnchoredTree.MayStart t l i j →
      ((l.address = Address.root → t.MayStart i) → c.Finds t l 1 i i false) →
        c.Finds t l l.length i j false
  | .mk hstart all, h => finds_of_beforeDot hc hsel ht hl all (h hstart)

theorem passes_of_row (hc : c.Saturated sel starts input) (hsel : sel.Sound) {side : Side}
    {label : String} {i j : Nat} :
    Reading.Row sel input AnchoredTree.MayStart side label i j → c.Passes side label i j
  | @Reading.Row.nil _ _ _ _ side _ _ => by
      cases side with
      | left => exact fun reason hd => ⟨hd, fun t l k adjoined _ _ h => ⟨adjoined, h⟩⟩
      | right => exact fun t l k _ _ h => h
  | @Reading.Row.cons _ _ _ _ side u m i j k hu hside hroot tree rest => by
      have hpasses := passes_of_row hc hsel rest
      have htree (hopened : u.MayStart i → c.Finds u m 1 i i false) :
          c.Finds u m m.length i j false :=
        finds_of_bare hc hsel hu (List.mem_of_mem_head? hroot) tree fun hstart =>
          hopened (hstart ((hsel.head?_eq_some_iff hu).1 hroot).2)
      cases side with
      | left =>
          intro reason hd
          have htree := htree fun hstart =>
            finds_of_openAuxiliary hsel hc.inv (hc.answered _ hd).before hu hside rfl hstart hroot
          obtain ⟨hd', hhosts⟩ := hpasses reason (hc.mem_demands_again hsel hside hu hroot htree hd)
          refine ⟨hd', fun t l k adjoined hsite hlabel hfinds => ?_⟩
          obtain ⟨adjoined', hnext⟩ := hhosts t l k adjoined hsite hlabel hfinds
          exact ⟨true, hc.finds_before hsel hsite hlabel hside hu hroot hnext htree⟩
      | right =>
          intro t l k hsite hlabel hfinds
          have htree := htree (hc.finds_opened_behind hsel hsite hlabel hside hu hroot hfinds)
          exact hpasses t l k hsite hlabel
            (hc.finds_behind hsel hsite hlabel hside hu hroot hfinds htree)

theorem finds_of_full (hc : c.Saturated sel starts input) (hsel : sel.Sound)
    {t : AnchoredTree W} {l : Layer} {label : String} {i j : Nat} {reason : Reason W}
    (ht : t ∈ sel.trees) (hl : l ∈ t.rule.layers) (hsite : t.IsSite l)
    (hlabel : l.hasLabel label = true) :
    Reading.Full sel input AnchoredTree.MayStart t l i j → ⟨i, label, reason⟩ ∈ c.demands →
      (∀ pos, Asks sel ⟨pos, label, reason⟩ t l) → ∃ adjoined, c.Finds t l l.length i j adjoined
  | .mk hlhs before node behind, hd, hasks => by
      obtain ⟨e, hlhs', rfl⟩ := Layer.hasLabel_iff.1 hlabel
      rw [hlhs] at hlhs'
      cases hlhs'
      obtain ⟨hd', hhosts⟩ := passes_of_row hc hsel before _ hd
      have hnode := finds_of_bare hc hsel ht hl node fun hstart =>
        hc.finds_of_asks hsel hd' (hasks _) hstart
      have hbehind := passes_of_row hc hsel behind t l _ hsite hlabel hnode
      exact hhosts t l _ false hsite hlabel hbehind

end

end Saturated

/-! ## Acceptance -/

theorem accepts_iff {c : Chart W} :
    c.accepts = true ↔ ∃ x ∈ c.items, x.isPassive = true ∧ x.left = 0 ∧
      x.right = c.inputLength ∧ x.isRootLayer = true ∧ x.tree.isInitial = true ∧
        c.starts.contains x.tree.root = true := by
  simp [accepts, accepting, and_assoc]

theorem accepts_iff_finds {sel : Selection W} {starts : SymbolSet} {n : Nat} {c : Chart W}
    (hsel : sel.Sound) (hinv : c.Inv sel starts n) :
    c.accepts = true ↔ ∃ t ∈ sel.trees, t.isInitial = true ∧ starts.contains t.root = true ∧
      ∃ l, t.rule.layers.head? = some l ∧ ∃ adjoined, c.Finds t l l.length 0 n adjoined := by
  have hn : c.inputLength = n := by
    rw [inputLength, hinv.size, Nat.add_sub_cancel]
  rw [accepts_iff, hn, hinv.starts]
  constructor
  · rintro ⟨x, hx, hpassive, hleft, hright, hroot, hinitial, hstart⟩
    have hv := hinv.valid x hx
    exact ⟨x.tree, hv.tree, hinitial, hstart, x.current,
      (Item.isRootLayer_iff_head? hsel hv.tree).1 hroot, x.leftAdjoined, x, hx, rfl, rfl,
      hv.dot_eq hpassive, hleft, hright, rfl⟩
  · rintro ⟨t, ht, hinitial, hstart, l, hl, adjoined, x, hx, rfl, rfl, hdot, hleft, hright, -⟩
    exact ⟨x, hx, Item.isPassive_iff.2 (Nat.le_of_eq hdot.symm), hleft, hright,
      (Item.isRootLayer_iff_head? hsel ht).2 hl, hinitial, hstart⟩

end Chart

namespace Grammar

variable [One W] [Mul W]

/-- Whether the input is read by an initial tree with a start symbol. -/
def Reads (g : Grammar W) (input : List String) (mayStart : AnchoredTree W → Nat → Prop) : Prop :=
  ∃ t ∈ (g.select input).trees, t.isInitial = true ∧ g.starts.contains t.root = true ∧
    ∃ l, t.rule.layers.head? = some l ∧
      Reading.Full (g.select input) input mayStart t l 0 input.length

theorem reads_of_accepts {g : Grammar W} {input : List String}
    (h : (g.parse input).accepts = true) : g.Reads input AnchoredTree.MayStart := by
  have hsel := g.sound_select input
  have hc := g.reached_parse input
  have hinv := hc.inv hsel
  obtain ⟨t, ht, hinitial, hstart, l, hl, adjoined, x, hx, rfl, rfl, hdot, hleft, hright, -⟩ :=
    (Chart.accepts_iff_finds hsel hinv).1 h
  have hfull := (hc.means hsel x hx).full (hinv.valid x hx)
    (Item.isPassive_iff.2 (Nat.le_of_eq hdot.symm))
  rw [hleft, hright] at hfull
  exact ⟨x.tree, ht, hinitial, hstart, x.current, hl, hfull⟩

/--
An input is accepted if and only if an initial tree with a start symbol reads it, where no
tree is read from a position behind its first anchor.
-/
theorem accepts_parse_iff (g : Grammar W) (hlex : g.Lexicalised) (input : List String) :
    (g.parse input).accepts = true ↔ g.Reads input AnchoredTree.MayStart := by
  constructor
  · exact reads_of_accepts
  · rintro ⟨t, ht, hinitial, hstart, l, hl, hfull⟩
    have hsel := g.sound_select input
    have hc := g.saturated_parse hlex input
    have hd : ⟨0, t.root, .site⟩ ∈ (g.parse input).demands :=
      hc.starts t.root (List.contains_iff_mem.1 hstart)
    obtain ⟨adjoined, hfinds⟩ := Chart.finds_of_full hc hsel ht (List.mem_of_mem_head? hl)
      (Or.inl hinitial) (hsel.hasLabel_of_head? ht hl) hfull hd fun _ => ⟨ht, hinitial, rfl, hl⟩
    exact (Chart.accepts_iff_finds hsel hc.inv).2
      ⟨t, ht, hinitial, hstart, l, hl, adjoined, hfinds⟩

theorem accepts_noun_with_adjective :
    adjectives.Lexicalised ∧ (adjectives.parse ["big", "dog"]).accepts = true ∧
      adjectives.Reads ["big", "dog"] AnchoredTree.MayStart := by
  have hlex : adjectives.Lexicalised := by decide
  have haccepts : (adjectives.parse ["big", "dog"]).accepts = true := by decide +kernel
  exact ⟨hlex, haccepts, (accepts_parse_iff adjectives hlex ["big", "dog"]).1 haccepts⟩

/-- Two trees with one anchor, of which the second reads a word behind the anchor only. -/
def lateObject : Grammar Nat :=
  ⟨[⟨0, [⟨⟨[0]⟩, [⟨.nonterminal, "S"⟩, ⟨.terminal, "a"⟩, ⟨.substitution, "X"⟩]⟩], ["a"], 1, 1,
      none⟩,
    ⟨1, [⟨⟨[0]⟩, [⟨.nonterminal, "X"⟩, ⟨.terminal, "b"⟩]⟩], ["a"], 1, 1, none⟩],
    SymbolSet.ofList ["S"], by decide, by decide⟩

/-- If trees could be read from anywhere, more would be read than is accepted. -/
theorem reads_anywhere_but_not_accepted :
    lateObject.Lexicalised ∧ lateObject.Reads ["a", "b"] (fun _ _ => True) ∧
      (lateObject.parse ["a", "b"]).accepts = false := by
  have htrees : (lateObject.select ["a", "b"]).trees =
      [⟨0, lateObject.rules[0], 0, "S"⟩, ⟨1, lateObject.rules[1], 0, "X"⟩] := rfl
  have hobject : Reading.Full (lateObject.select ["a", "b"]) ["a", "b"] (fun _ _ => True)
      ⟨1, lateObject.rules[1], 0, "X"⟩ lateObject.rules[1].layers[0] 1 2 :=
    .mk rfl .nil (.mk (fun _ => trivial) (.word .start rfl rfl rfl)) .nil
  have hverb : Reading.Full (lateObject.select ["a", "b"]) ["a", "b"] (fun _ _ => True)
      ⟨0, lateObject.rules[0], 0, "S"⟩ lateObject.rules[0].layers[0] 0 2 := by
    refine .mk rfl .nil (.mk (fun _ => trivial) ?_) .nil
    refine .site (.word .start rfl rfl rfl) rfl ?_ rfl (by decide) rfl hobject
    rw [htrees]
    exact List.mem_cons_of_mem _ List.mem_cons_self
  refine ⟨by decide, ⟨_, ?_, rfl, by decide, _, rfl, hverb⟩, by decide +kernel⟩
  rw [htrees]
  exact List.mem_cons_self

end Grammar

end TreeInsertion
