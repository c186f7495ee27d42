import TreeInsertion.Proofs.Chart.Closure
import TreeInsertion.Proofs.Chart.Stages

/-!
# When sites are filled

A recognised initial tree fills the sites that wait for it when it has its turn, which it
has once.  The sites before a tree that has read something are all there by then.  A tree
that has read nothing ends where it starts, and misses the sites that come up there later.
-/

namespace TreeInsertion

variable {W : Type}

namespace Chart

/-! ## Where derivations come from -/

def Cites (c : Chart W) (why : Derivation) : Prop :=
  ∃ x ∈ c.items, why ∈ x.derivations

theorem Records.cites {c : Chart W} {cell : Item.Key} {why : Derivation}
    (h : c.Records cell why) : c.Cites why := by
  obtain ⟨x, hx, -, hwhy⟩ := h
  exact ⟨x, hx, hwhy⟩

variable {c : Chart W} {why : Derivation}

theorem cites_add {x : Item W} {new : Derivation} (h : (c.add x new).Cites why) :
    c.Cites why ∨ why = new := by
  obtain ⟨y, hy, hwhy⟩ := h
  cases hindex : c.index[x.key]? with
  | some i =>
      rw [add_of_taken hindex] at hy
      obtain ⟨j, hj⟩ := Array.getElem?_of_mem hy
      rw [getElem?_modify_derive] at hj
      obtain ⟨z, hz, rfl⟩ := Option.map_eq_some_iff.1 hj
      have hmem := Array.mem_of_getElem? hz
      by_cases hij : i = j
      · rw [if_pos hij] at hwhy
        exact (Item.mem_derive.1 hwhy).imp_left fun hold => ⟨z, hmem, hold⟩
      · rw [if_neg hij] at hwhy
        exact Or.inl ⟨z, hmem, hwhy⟩
  | none =>
      rw [add_of_free hindex] at hy
      rcases Array.mem_push.1 hy with hold | rfl
      · exact Or.inl ⟨y, hold, hwhy⟩
      · exact Or.inr (List.mem_singleton.1 hwhy)

theorem cites_foldl_apply {as : List (Action W)} (h : (as.foldl apply c).Cites why) :
    c.Cites why ∨ ∃ y, .add y why ∈ as := by
  induction as generalizing c with
  | nil => exact Or.inl h
  | cons a as ih =>
      rcases ih h with hcites | ⟨y, hy⟩
      · cases a with
        | note d => exact Or.inl hcites
        | add x new =>
            refine (cites_add hcites).imp_right fun heq => ⟨x, ?_⟩
            rw [heq]
            exact List.mem_cons_self
      · exact Or.inr ⟨y, List.mem_cons_of_mem a hy⟩

/-- Phases that never add the derivation leave it to those before them. -/
theorem cites_foldl_run {ps : List (Phase W)}
    (hps : ∀ phase ∈ ps, ∀ c' y, .add y why ∉ phase c') (h : (ps.foldl run c).Cites why) :
    c.Cites why := by
  induction ps generalizing c with
  | nil => exact h
  | cons phase ps ih =>
      have hrun := ih (fun p hp => hps p (List.mem_cons_of_mem phase hp)) h
      refine (cites_foldl_apply hrun).resolve_right ?_
      rintro ⟨y, hy⟩
      exact hps phase List.mem_cons_self c y hy

theorem eq_predicted_of_mem_openRoots {trees : List (AnchoredTree W)} {pos : Nat} {y : Item W}
    (h : .add y why ∈ openRoots trees pos) : why = .predicted := by
  obtain ⟨t, _, _, _, heq⟩ := mem_openRoots.1 h
  cases heq
  rfl

variable [One W] [Mul W]

omit [Mul W] in
/-- Whatever a demand opens is predicted. -/
theorem eq_predicted_of_mem_demand {label : String} {pos : Nat} {reason : Reason W} {y : Item W}
    (h : .add y why ∈ demand label pos reason c) : why = .predicted := by
  unfold demand at h
  dsimp only at h
  split at h
  · cases h
  · rcases List.mem_append.1 h with hmem | hmem
    · rcases List.mem_cons.1 hmem with hnote | hopen
      · cases hnote
      · cases reason with
        | inner t i =>
            cases List.mem_singleton.1 hopen
            rfl
        | site => exact eq_predicted_of_mem_openRoots hopen
    · split at hmem
      · exact eq_predicted_of_mem_openRoots hmem
      · cases hmem

variable {input : List String} {p d : Nat}

omit [One W] in
theorem not_substitution_of_mem_joinToHost {x y : Item W} {phase : Phase W}
    (hphase : phase ∈ joinToHost x) {c' : Chart W} :
    .add y (.substitution p d) ∉ phase c' := by
  intro h
  unfold joinToHost at hphase
  split at hphase
  · cases hphase
  · rcases List.mem_pair.1 hphase with rfl | rfl
    · split at h
      · cases h
      · cases eq_predicted_of_mem_openRoots h
    · obtain ⟨aux, -, heq⟩ := List.mem_map.1 h
      cases heq

/-- None but recognised initial trees are substituted. -/
theorem recognised_of_substitution {x y : Item W} {phase : Phase W}
    (hphase : phase ∈ phases input c x) {c' : Chart W}
    (h : .add y (.substitution p d) ∈ phase c') :
    x.isPassive = true ∧ x.isRootLayer = true ∧ x.tree.isInitial = true := by
  cases mem_phases.1 hphase with
  | fillSites hpassive hroot hinitial => exact ⟨hpassive, hroot, hinitial⟩
  | demandInner | demandSite | demandAgain => cases eq_predicted_of_mem_demand h
  | passFoot => cases List.mem_singleton.1 h
  | scan =>
      unfold scan at h
      split at h
      · cases List.mem_singleton.1 h
      · cases h
  | completeEmpty =>
      unfold completeEmpty at h
      split at h
      · cases h
      · cases List.mem_singleton.1 h
  | openRight =>
      split at h
      · cases h
      · cases eq_predicted_of_mem_openRoots h
  | fillParents | takeLeft | joinRight | joinLeft =>
      obtain ⟨z, -, heq⟩ := List.mem_map.1 h
      cases heq

/-- A turn substitutes its own item alone, for items that were there when it began. -/
theorem cites_process {x : Item W} (h : (c.process input x).Cites (.substitution p d)) :
    c.Cites (.substitution p d) ∨ d = x.id ∧ ∃ y ∈ c.itemsAt x.left, y.id = p := by
  by_cases hrecognised :
      x.isPassive = true ∧ x.isRootLayer = true ∧ x.tree.isInitial = true
  · obtain ⟨hpassive, hroot, hinitial⟩ := hrecognised
    have hsite : x.isAdjunctionSite = true := by rw [Item.isAdjunctionSite, hinitial, Bool.true_or]
    have hphases : phases input c x = fillSites x :: joinToHost x := by
      simp [phases_of_isPassive hpassive, finish, hroot, hinitial, hsite]
    rw [process, hphases, List.foldl_cons] at h
    have hfirst := cites_foldl_run
      (fun _ hphase _ _ => not_substitution_of_mem_joinToHost hphase) h
    refine (cites_foldl_apply hfirst).imp_right ?_
    rintro ⟨z, hz⟩
    obtain ⟨y, hy, heq⟩ := List.mem_map.1 hz
    cases heq
    exact ⟨rfl, y, List.mem_of_mem_filter hy, rfl⟩
  · refine Or.inl (cites_foldl_run (fun phase hphase c' y hy => ?_) h)
    exact hrecognised (recognised_of_substitution hphase hy)

end Chart

namespace Stage

variable [One W] [Mul W] {sel : Selection W} {starts : SymbolSet} {input : List String}

/-- Whether item `p` was there when item `d` had its turn. -/
def InTime (sel : Selection W) (starts : SymbolSet) (input : List String) (p d : Nat) : Prop :=
  ∃ s : Stage W, s.Reachable sel starts input ∧
    ∃ x, s.item? = some x ∧ x.id = d ∧ p < s.chart.items.size

theorem Reachable.inTime (hsel : sel.Sound) {s : Stage W} (h : s.Reachable sel starts input)
    {p d : Nat} (hcites : s.chart.Cites (.substitution p d)) : InTime sel starts input p d := by
  induction h with
  | refl =>
      -- nothing but predictions is there before the first turn
      rw [first, Chart.seeded_eq_foldl_run] at hcites
      obtain ⟨x, hx, -⟩ := Chart.cites_foldl_run (fun phase hphase c y hy => by
        obtain ⟨symbol, -, rfl⟩ := List.mem_map.1 hphase
        cases Chart.eq_predicted_of_mem_demand hy) hcites
      simp [Chart.empty] at hx
  | @tail s s' hs hnext ih =>
      cases hnext with
      | move hpos hend => exact ih hcites
      | @turn x hx =>
          rcases Chart.cites_process hcites with hold | ⟨rfl, y, hy, rfl⟩
          · exact ih hold
          · have hreach : s.Reachable sel starts input := hs
            have hfiled := ((hreach.orderly hsel).inv hsel).filed
            exact ⟨s, hs, x, hx, rfl, hfiled.id_lt_size (hfiled.mem_itemsAt.1 hy).1⟩

section Last

variable {last : Stage W} {p d : Item W}

/-- A turn fills the sites that are there, and nothing is lost until the end. -/
theorem records_of_inTime (hsel : sel.Sound) (hlast : last.Reachable sel starts input)
    (hpos : last.pos = input.length + 1) (hp : p ∈ last.chart.items)
    (hd : d ∈ last.chart.items) (hnext : p.next? = some ⟨.substitution, d.tree.root⟩)
    (hpassive : d.isPassive = true) (hroot : d.isRootLayer = true)
    (hinitial : d.tree.isInitial = true) (hother : p.tree.id ≠ d.tree.id)
    (hspan : d.left = p.right) (hin : InTime sel starts input p.id d.id) :
    last.chart.Records (p.advanceTo d.right (p.weight * d.weight)).key
      (.substitution p.id d.id) := by
  obtain ⟨s, hs, x, hx, hid, hlt⟩ := hin
  have hfiled := ((hlast.orderly hsel).inv hsel).filed
  have hreached := (hs.orderly hsel).reached
  have hext := (hs.follows_last hsel hlast hpos).extension
  obtain ⟨hhas, hmem, -, -⟩ := (hreached.inv hsel).filed.of_turn hx
  have hthere := hext.has_of_lt_size (hfiled.has_of_mem hp) hlt
  -- the item of the turn is `d`, before it had all its derivations
  obtain ⟨ds, hds⟩ := hext.has hhas
  have hget := hfiled.getElem?_id hd
  rw [← hid, hds, Option.some.injEq] at hget
  subst hget
  have hrecords := Chart.records_substitution hsel hreached hhas hthere hnext hpassive hroot
    hinitial hother hspan
  have hafter : Reachable sel starts input
      ⟨s.turns ++ [x.id], s.pos, s.place + 1, s.chart.process input x⟩ := hs.tail (.turn hx)
  exact (hafter.follows_last hsel hlast hpos).extension.records hrecords

/-- An item that ends earlier or has a smaller number is there in time. -/
theorem inTime_of_before (hsel : sel.Sound) (hlast : last.Reachable sel starts input)
    (hpos : last.pos = input.length + 1) (hp : p ∈ last.chart.items)
    (hd : d ∈ last.chart.items) (hbefore : p.right < d.right ∨ p.id < d.id) :
    InTime sel starts input p.id d.id := by
  have horderly := hlast.orderly hsel
  have hinv := horderly.inv hsel
  have hright := (hinv.valid d hd).right_le
  have hdone : Chart.Done last.pos last.place last.chart d :=
    ⟨hinv.filed.has_of_mem hd, Or.inl (by omega)⟩
  obtain ⟨s, hs, x, hx, hid⟩ := hlast.exists_turn (horderly.mem_turns.2 ⟨d, rfl, hdone⟩)
  refine ⟨s, hs, x, hx, hid, ?_⟩
  have hfiled := ((hs.orderly hsel).inv hsel).filed
  have hfollows := hs.follows_last hsel hlast hpos
  obtain ⟨hhas, hmem, hpos, -⟩ := hfiled.of_turn hx
  rcases hbefore with hlt | hlt
  · obtain ⟨ds, hds⟩ := hfollows.extension.has hhas
    have hget := hinv.filed.getElem?_id hd
    rw [← hid, hds, Option.some.injEq] at hget
    have hend : d.right = s.pos := by rw [← hget, hpos]
    have hplace := hinv.filed.sets.2 ⟨p, hinv.filed.getElem?_id hp, rfl⟩
    rw [hfollows.behind (hend ▸ hlt)] at hplace
    exact hfiled.lt_size_of_mem_idsAt hplace
  · have hless := hfiled.id_lt_size hmem
    omega

end Last

end Stage

namespace Grammar

variable [One W] [Mul W]

/--
A recognised initial tree is substituted at a site where it starts if and only if the item
that waits for it was there when the tree had its turn.  That is so whenever the tree has
read something or came up after that item.
-/
theorem substituted_iff_inTime (g : Grammar W) (input : List String) {p d : Item W}
    (hp : p ∈ (g.parse input).items) (hd : d ∈ (g.parse input).items)
    (hnext : p.next? = some ⟨.substitution, d.tree.root⟩) (hpassive : d.isPassive = true)
    (hroot : d.isRootLayer = true) (hinitial : d.tree.isInitial = true)
    (hother : p.tree.id ≠ d.tree.id) (hspan : d.left = p.right) :
    ((g.parse input).Records (p.advanceTo d.right (p.weight * d.weight)).key
        (.substitution p.id d.id) ↔
      Stage.InTime (g.select input) g.starts input p.id d.id) ∧
    (d.left < d.right ∨ p.id < d.id →
      Stage.InTime (g.select input) g.starts input p.id d.id) := by
  have hsel := g.sound_select input
  obtain ⟨turns, hlast⟩ := Stage.exists_reachable_last g.starts input hsel
  refine ⟨⟨fun hrecords => hlast.inTime hsel hrecords.cites, ?_⟩, fun hbefore => ?_⟩
  · exact Stage.records_of_inTime hsel hlast rfl hp hd hnext hpassive hroot hinitial hother hspan
  · exact Stage.inTime_of_before hsel hlast rfl hp hd (hspan ▸ hbefore)

/-- A tree with two sites in front of its anchor, and an empty tree for them. -/
def twoSites : Grammar Nat :=
  ⟨[⟨0, [⟨⟨[0]⟩, [⟨.nonterminal, "S"⟩, ⟨.substitution, "X"⟩, ⟨.substitution, "X"⟩,
      ⟨.terminal, "a"⟩]⟩], ["a"], 1, 1, none⟩,
    ⟨1, [⟨⟨[0]⟩, [⟨.nonterminal, "X"⟩]⟩], ["a"], 1, 1, none⟩],
    SymbolSet.ofList ["S"], by decide, by decide⟩

theorem substituted_at_first_site :
    ∃ p ∈ (twoSites.parse ["a"]).items, ∃ d ∈ (twoSites.parse ["a"]).items,
      p.next? = some ⟨.substitution, d.tree.root⟩ ∧ d.left = d.right ∧
      (twoSites.parse ["a"]).Records (p.advanceTo d.right (p.weight * d.weight)).key
        (.substitution p.id d.id) := by
  have hp : 0 < (twoSites.parse ["a"]).items.size := by decide +kernel
  have hd : 1 < (twoSites.parse ["a"]).items.size := by decide +kernel
  have hnext : (twoSites.parse ["a"]).items[0].next? =
      some ⟨.substitution, (twoSites.parse ["a"]).items[1].tree.root⟩ := by decide +kernel +revert
  have hbefore : (twoSites.parse ["a"]).items[0].id < (twoSites.parse ["a"]).items[1].id := by
    decide +kernel +revert
  refine ⟨_, Array.getElem_mem hp, _, Array.getElem_mem hd, hnext, by decide +kernel +revert, ?_⟩
  obtain ⟨hiff, hin⟩ := substituted_iff_inTime twoSites ["a"] (Array.getElem_mem hp)
    (Array.getElem_mem hd) hnext (by decide +kernel +revert) (by decide +kernel +revert)
    (by decide +kernel +revert) (by decide +kernel +revert) (by decide +kernel +revert)
  exact hiff.2 (hin (Or.inr hbefore))

/-- The empty tree had its turn before the dot came to the second site. -/
theorem not_substituted_at_second_site :
    ∃ p ∈ (twoSites.parse ["a"]).items, ∃ d ∈ (twoSites.parse ["a"]).items,
      p.next? = some ⟨.substitution, d.tree.root⟩ ∧ d.isPassive = true ∧
      d.isRootLayer = true ∧ d.tree.isInitial = true ∧ p.tree.id ≠ d.tree.id ∧
      d.left = p.right ∧ d.left = d.right ∧
      ¬ ∃ x ∈ (twoSites.parse ["a"]).items,
        x.key = (p.advanceTo d.right (p.weight * d.weight)).key := by
  have hp : 2 < (twoSites.parse ["a"]).items.size := by decide +kernel
  have hd : 1 < (twoSites.parse ["a"]).items.size := by decide +kernel
  refine ⟨_, Array.getElem_mem hp, _, Array.getElem_mem hd, ?_⟩
  decide +kernel +revert

end Grammar

end TreeInsertion
