import Mathlib.Algebra.BigOperators.Group.List.Basic
import Mathlib.Algebra.Field.Rat
import TreeInsertion.Proofs.Forest.Trees

/-!
# Weights

An item is weighed once, by the derivation that brought it up first.  So its weight is
that of one derivation tree: the product of the weights of the rules that are put
together there, a rule as often as it is used.
-/

namespace TreeInsertion

variable {W : Type}

/-- What an item weighs when it is opened: the root of a tree carries the weight of the rule. -/
def Item.ownWeight [One W] (x : Item W) : W :=
  if x.isRootLayer then x.tree.rule.weight else One.one

theorem Item.ownWeight_congr [One W] {x y : Item W} (htree : x.tree = y.tree)
    (hcurrent : x.current = y.current) : x.ownWeight = y.ownWeight := by
  rw [ownWeight, ownWeight, isRootLayer, isRootLayer, hcurrent, htree]

theorem Item.head?_derive {x : Item W} {first : Derivation}
    (h : x.derivations.head? = some first) (why : Derivation) :
    (x.derive why).derivations.head? = some first := by
  obtain ⟨more, hmore⟩ := x.prefix_derive why
  rw [← hmore, List.head?_append, h, Option.some_or]

namespace Chart

def weightOf? (c : Chart W) (id : Nat) : Option W :=
  c.items[id]?.map Item.weight

def productOf? [Mul W] (c : Chart W) (i j : Nat) : Option W := do
  return (← c.weightOf? i) * (← c.weightOf? j)

def weightBy? [One W] [Mul W] (c : Chart W) (x : Item W) : Derivation → Option W
  | .predicted => some x.ownWeight
  | .scan source => c.weightOf? source
  | .foot source => c.weightOf? source
  | .complete parent child => c.productOf? parent child
  | .substitution parent child => c.productOf? parent child
  | .adjunction host auxiliary => c.productOf? host auxiliary

/-! ## The first derivation -/

theorem Has.weightOf? {c : Chart W} {x : Item W} (h : c.Has x) :
    c.weightOf? x.id = some x.weight := by
  obtain ⟨ds, hx⟩ := h
  rw [Chart.weightOf?, hx]
  rfl

theorem Extends.weightOf? {c c' : Chart W} (h : c.Extends c') {id : Nat} {w : W}
    (hw : c.weightOf? id = some w) : c'.weightOf? id = some w := by
  obtain ⟨x, hx, rfl⟩ := Option.map_eq_some_iff.1 hw
  obtain ⟨ds, hds, -⟩ := h.items hx
  rw [Chart.weightOf?, hds]
  rfl

theorem Has.productOf? [Mul W] {c : Chart W} {x y : Item W} (hx : c.Has x) (hy : c.Has y) :
    c.productOf? x.id y.id = some (x.weight * y.weight) := by
  rw [Chart.productOf?, hx.weightOf?, hy.weightOf?]
  rfl

theorem Extends.productOf? [Mul W] {c c' : Chart W} (h : c.Extends c') {i j : Nat} {w : W}
    (hw : c.productOf? i j = some w) : c'.productOf? i j = some w := by
  obtain ⟨u, hu, hw⟩ := Option.bind_eq_some_iff.1 hw
  obtain ⟨v, hv, hw⟩ := Option.bind_eq_some_iff.1 hw
  rw [Chart.productOf?, h.weightOf? hu, h.weightOf? hv]
  exact hw

section Weighed

variable [One W] [Mul W] {sel : Selection W} {starts : SymbolSet} {input : List String}

def Weighed (c : Chart W) (x : Item W) : Prop :=
  ∃ why, x.derivations.head? = some why ∧ c.weightBy? x why = some x.weight

theorem Extends.weightBy? {c c' : Chart W} (h : c.Extends c') {x : Item W} {why : Derivation}
    {w : W} (hw : c.weightBy? x why = some w) : c'.weightBy? x why = some w := by
  cases why with
  | predicted => exact hw
  | scan source => exact h.weightOf? hw
  | foot source => exact h.weightOf? hw
  | complete parent child => exact h.productOf? hw
  | substitution parent child => exact h.productOf? hw
  | adjunction host auxiliary => exact h.productOf? hw

theorem Weighed.mono {c c' : Chart W} {x : Item W} (h : Weighed c x) (hext : c.Extends c') :
    Weighed c' x := by
  obtain ⟨why, hhead, hw⟩ := h
  exact ⟨why, hhead, hext.weightBy? hw⟩

/-- The weight of an item that a step concludes comes from the items that it starts from. -/
theorem Step.weightBy? {c : Chart W} {x : Item W} {why : Derivation}
    (h : Step input c.Has x why) : c.weightBy? x why = some x.weight := by
  cases h with
  | scan hx _ _ _ => exact hx.weightOf?
  | foot hx _ => exact hx.weightOf?
  | complete hp hd _ _ _ _ _ => exact hp.productOf? hd
  | substitution hp hd _ _ _ _ _ _ => exact hp.productOf? hd
  | right hh ha _ _ _ _ => exact hh.productOf? ha
  | left hh ha _ _ _ => exact hh.productOf? ha

theorem Licensed.weightBy? {c : Chart W} {x : Item W} {why : Derivation}
    (h : Licensed sel input c (.add x why)) : c.weightBy? x why = some x.weight := by
  rcases h with ⟨rfl, hopens⟩ | hstep
  · exact congrArg some hopens.weight.symm
  · exact hstep.weightBy?

/-- Later derivations of an item leave its weight as it is. -/
theorem Reached.weighed (hsel : sel.Sound) {c : Chart W} (hc : Reached sel starts input c) :
    ∀ x ∈ c.items, Weighed c x := by
  induction hc with
  | empty => simp [Chart.empty]
  | @apply c a hc ha ih =>
      have hinv := hc.inv hsel
      have hext := extends_apply (hinv.fits_of_licensed hsel ha)
      cases a with
      | note d => exact fun x hx => (ih x hx).mono hext
      | add x why =>
          intro y hy
          rcases hinv.filed.mem_add hy with hold | ⟨z, hz, -, rfl⟩ | rfl
          · exact (ih y hold).mono hext
          · obtain ⟨first, hhead, hw⟩ := ih z hz
            refine Weighed.mono ⟨first, Item.head?_derive hhead why, ?_⟩ hext
            rw [Item.derive_eq]
            exact hw
          · exact ⟨why, rfl, hext.weightBy? ha.weightBy?⟩

end Weighed

end Chart

/-! ## Derivation trees of first derivations -/

namespace Account

/-- Whether the account goes by the first derivation of every item. -/
inductive First (c : Chart W) : Account → Prop where
  | mk {id : Nat} {why : Derivation} {parts : List Account}
      (hwhy : (c.derivationsOf id).head? = some why)
      (hids : parts.map Account.id = why.antecedents) (hparts : ∀ a ∈ parts, First c a) :
      First c (.mk id why parts)

/-- The trees that the account puts together below the given root, each as often as it does so. -/
def trees (c : Chart W) (root : AnchoredTree W) (A : Account) : List (AnchoredTree W) :=
  root :: (A.edges c).map Edge.second

theorem First.valid {c : Chart W} {A : Account} (h : A.First c) : A.Valid c := by
  induction h with
  | mk hwhy hids _ ih => exact .mk (List.mem_of_mem_head? hwhy) hids ih

theorem First.parts {c : Chart W} {id : Nat} {why : Derivation} {parts : List Account}
    (h : First c (.mk id why parts)) : ∀ a ∈ parts, a.First c := by
  obtain ⟨-, -, hparts⟩ := h
  exact hparts

theorem eq_of_map_id_eq {as bs : List Account} (hids : as.map Account.id = bs.map Account.id)
    (heq : ∀ a ∈ as, ∀ b ∈ bs, a.id = b.id → a = b) : as = bs := by
  induction as generalizing bs with
  | nil => exact (List.map_eq_nil_iff.1 hids.symm).symm
  | cons a as ih =>
      obtain ⟨b, bs, rfl, hid, hids⟩ := List.map_eq_cons_iff.1 hids.symm
      have hhead := heq a (by simp) b (by simp) hid.symm
      have htail := ih hids.symm fun a ha b hb =>
        heq a (List.mem_cons_of_mem _ ha) b (List.mem_cons_of_mem _ hb)
      rw [hhead, htail]

/-- The first derivations leave no choice. -/
theorem First.eq {c : Chart W} {A B : Account} (hA : A.First c) (hB : B.First c)
    (hid : A.id = B.id) : A = B := by
  induction hA generalizing B with
  | @mk id why parts hwhy hids _ ih =>
      obtain ⟨hwhy', hids', hparts'⟩ := hB
      cases hid
      cases Option.some.inj (hwhy.symm.trans hwhy')
      rw [eq_of_map_id_eq (hids.trans hids'.symm) fun a ha b hb => ih a ha (hparts' b hb)]

end Account

namespace Chart

section Product

variable {sel : Selection W} {starts : SymbolSet} {input : List String} {c : Chart W}

/-- First derivations go back to earlier items, so they end. -/
theorem exists_first [Mul W] (hfiled : c.Filed) (hderived : ∀ x ∈ c.items, Derived input c x)
    {id : Nat} (hid : id < c.items.size) : ∃ A : Account, A.id = id ∧ A.First c := by
  induction id using Nat.strong_induction_on with
  | h id ih =>
      have hget := Array.getElem?_eq_getElem hid
      have hx := hderived _ (Array.getElem_mem hid)
      obtain ⟨why, more, hderivations⟩ := List.exists_cons_of_ne_nil hx.ne_nil
      have hwhy : c.items[id].derivations.head? = some why := by rw [hderivations]; rfl
      have hlt : ∀ a ∈ why.antecedents, a < id := fun a ha =>
        hfiled.id_eq hget ▸ hx.first why hwhy a ha
      have : Nonempty Account := ⟨.mk 0 .predicted []⟩
      choose! part hpart using fun a (ha : a ∈ why.antecedents) =>
        ih a (hlt a ha) ((hlt a ha).trans hid)
      refine ⟨.mk id why (why.antecedents.map part), rfl, .mk ?_ ?_ ?_⟩
      · rw [derivationsOf, hget]
        exact hwhy
      · rw [List.map_map]
        exact (List.map_congr_left fun a ha => (hpart a ha).1).trans (List.map_id' _)
      · intro A hA
        obtain ⟨a, ha, rfl⟩ := List.mem_map.1 hA
        exact (hpart a ha).2

theorem Holds.has {x : Item W} (h : c.Holds x) : c.Has x :=
  ⟨x.derivations, h⟩

/-- The weight of an item is the one that its first account gives. -/
theorem weightBy?_of_first [One W] [Mul W] (hweighed : ∀ x ∈ c.items, Weighed c x) {x : Item W}
    (hx : c.Holds x) {why : Derivation} {parts : List Account}
    (hA : Account.First c (.mk x.id why parts)) : c.weightBy? x why = some x.weight := by
  obtain ⟨hwhy, -, -⟩ := hA
  obtain ⟨first, hfirst, hw⟩ := hweighed x (Array.mem_of_getElem? hx)
  rw [derivationsOf, show c.items[x.id]? = some x from hx, hfirst] at hwhy
  rwa [← Option.some.inj hwhy]

theorem weight_eq_of_source [One W] [Mul W] {x p : Item W} (hp : c.Holds p)
    (hw : c.weightOf? p.id = some x.weight) : x.weight = p.weight :=
  Option.some.inj (hw.symm.trans hp.has.weightOf?)

theorem weight_eq_of_sources [One W] [Mul W] {x p d : Item W} (hp : c.Holds p) (hd : c.Holds d)
    (hw : c.productOf? p.id d.id = some x.weight) : x.weight = p.weight * d.weight :=
  Option.some.inj (hw.symm.trans (hp.has.productOf? hd.has))

/-- A tree that is put in brings the weight of its rule along. -/
theorem prod_attached [CommMonoid W] (u : W) (E F : Analysis W) (e : Edge (AnchoredTree W)) :
    u * (E.map fun e => e.second.rule.weight).prod *
        (e.second.rule.weight * (F.map fun e => e.second.rule.weight).prod) =
      u * ((E ++ F ++ [e]).map fun e => e.second.rule.weight).prod := by
  rw [List.map_append, List.map_append, List.prod_append, List.prod_append, List.map_singleton,
    List.prod_singleton, mul_assoc, mul_assoc, mul_comm e.second.rule.weight]

/-- An item weighs what it started with, times the rules of the trees that were put into it. -/
theorem weight_of_first [CommMonoid W] (hsel : sel.Sound) (hinv : c.Inv sel starts input.length)
    (hweighed : ∀ x ∈ c.items, Weighed c x) {A : Account} {x : Item W} {E : Analysis W}
    (h : c.Recounts A x E) (hA : A.First c) :
    x.weight = x.ownWeight * (E.map fun e => e.second.rule.weight).prod := by
  induction h with
  | opened hx hdot hspan hplain =>
      have hw := weightBy?_of_first hweighed hx hA
      rw [List.map_nil, List.prod_nil, mul_one]
      exact (Option.some.inj hw).symm
  | scan hx hp hnext hread hagrees ih =>
      have hw := weightBy?_of_first hweighed hx hA
      have hadvances := Item.Agrees.advances (Item.isActive_of_next? hnext) hagrees
      rw [weight_eq_of_source hp.holds hw, ih (hA.parts _ (by simp)),
        Item.ownWeight_congr hadvances.tree hadvances.current]
  | foot hx hp hnext hagrees ih =>
      have hw := weightBy?_of_first hweighed hx hA
      have hadvances := Item.Agrees.advances (Item.isActive_of_next? hnext) hagrees
      rw [weight_eq_of_source hp.holds hw, ih (hA.parts _ (by simp)),
        Item.ownWeight_congr hadvances.tree hadvances.current]
  | @complete x p d A B E F hx hp hd hactive hpassive htree haddress hspan hagrees ihp ihd =>
      have hw := weightBy?_of_first hweighed hx hA
      have hadvances := Item.Agrees.advances hactive hagrees
      obtain ⟨hinner, -⟩ := Item.Valid.next?_of_child hsel (hinv.valid_of_holds hp.holds)
        (hinv.valid_of_holds hd.holds) (congrArg AnchoredTree.id htree.symm) haddress
      have hown : d.ownWeight = 1 := if_neg (by simp [hinner])
      rw [weight_eq_of_sources hp.holds hd.holds hw, ihp (hA.parts _ (by simp)),
        ihd (hA.parts _ (by simp)), Item.ownWeight_congr hadvances.tree hadvances.current, hown,
        one_mul, List.map_append, List.prod_append, mul_assoc]
  | @substitution x p d A B E F hx hp hd hnext hpassive hroot hspan hagrees ihp ihd =>
      have hw := weightBy?_of_first hweighed hx hA
      have hadvances := Item.Agrees.advances (Item.isActive_of_next? hnext) hagrees
      have hown : d.ownWeight = d.tree.rule.weight := if_pos hroot
      rw [weight_eq_of_sources hp.holds hd.holds hw, ihp (hA.parts _ (by simp)),
        ihd (hA.parts _ (by simp)), Item.ownWeight_congr hadvances.tree hadvances.current, hown]
      exact prod_attached _ E F (substitutionEdge p d)
  | @right x h a A B E F spine hx hh ha hhost hplain haux hspan hagrees ihh iha =>
      have hw := weightBy?_of_first hweighed hx hA
      have hown : a.ownWeight = a.tree.rule.weight := if_pos (isFinishedAuxiliary_iff.1 haux).2.1
      have hsame : x.ownWeight = h.ownWeight := Item.ownWeight_congr hagrees.tree hagrees.current
      rw [weight_eq_of_sources hh.holds ha.holds hw, ihh (hA.parts _ (by simp)),
        iha (hA.parts _ (by simp)), hsame, hown]
      exact prod_attached _ E F (adjunctionEdge h a spine)
  | @left x h a A B E F spine hx hh ha hhost haux hspan hagrees ihh iha =>
      have hw := weightBy?_of_first hweighed hx hA
      have hown : a.ownWeight = a.tree.rule.weight := if_pos (isFinishedAuxiliary_iff.1 haux).2.1
      have hsame : x.ownWeight = h.ownWeight := Item.ownWeight_congr hagrees.tree hagrees.current
      rw [weight_eq_of_sources hh.holds ha.holds hw, ihh (hA.parts _ (by simp)),
        iha (hA.parts _ (by simp)), hsame, hown]
      exact prod_attached _ E F (adjunctionEdge h a spine)

end Product

end Chart

namespace Grammar

/--
The first derivation of every item fixes its weight.  Where multiplication is exact, as that
of rational numbers is, an accepted item weighs as much as all trees of its one derivation
tree by first derivations, each counted as often as it is put in.
-/
theorem weights_parse :
    (∀ {W : Type} [One W] [Mul W] (g : Grammar W) (input : List String),
      ∀ x ∈ (g.parse input).items, ∃ why, x.derivations.head? = some why ∧
        (g.parse input).weightBy? x why = some x.weight) ∧
    ∀ {W : Type} [CommMonoid W] (g : Grammar W) (input : List String),
      ∀ x ∈ (g.parse input).accepting,
        (∃! A : Account, A.id = x.id ∧ A.First (g.parse input)) ∧
        ∀ A : Account, A.id = x.id → A.First (g.parse input) →
          x.weight = ((A.trees (g.parse input) x.tree).map fun t => t.rule.weight).prod := by
  refine ⟨fun g input => (g.reached_parse input).weighed (g.sound_select input), ?_⟩
  intro W _ g input x hx
  have hsel := g.sound_select input
  have hreached := g.reached_parse input
  have hinv := hreached.inv hsel
  have hderived := hreached.derived hsel
  have hholds := holds_of_mem_accepting hx
  obtain ⟨A, hA, hfirst⟩ := Chart.exists_first hinv.filed hderived
    (hinv.filed.id_lt_size (Chart.mem_items_of_mem_accepting hx))
  refine ⟨⟨A, ⟨hA, hfirst⟩, fun B hB => hB.2.eq hfirst (hB.1.trans hA.symm)⟩, ?_⟩
  intro A hA hfirst
  have hrecounts := Chart.recounts_of_valid hsel hinv hderived hfirst.valid hholds hA
  have hroot : x.ownWeight = x.tree.rule.weight :=
    if_pos (isPassive_and_isRootLayer_of_mem_accepting hx).2
  rw [Chart.weight_of_first hsel hinv (hreached.weighed hsel) hrecounts hfirst, hroot,
    Account.trees, List.map_cons, List.prod_cons, List.map_map]
  rfl

def weighedAdjectives : Grammar ℚ :=
  ⟨[⟨0, [⟨⟨[0]⟩, [⟨.nonterminal, "N"⟩, ⟨.terminal, "dog"⟩]⟩], ["dog"], 1, 1 / 2, none⟩,
    ⟨1, [⟨⟨[0]⟩, [⟨.nonterminal, "N"⟩, ⟨.terminal, "big"⟩, ⟨.foot, "N"⟩]⟩], ["big"], 1, 1 / 3,
      some ⟨[0]⟩⟩],
    SymbolSet.ofList ["N"], by decide, by decide⟩

theorem weight_big_dog :
    ∃ x ∈ (weighedAdjectives.parse ["big", "dog"]).accepting, x.weight = 1 / 6 ∧
      (weighedAdjectives.parse ["big", "dog"]).Weighed x ∧
      ∃ A : Account, A.id = x.id ∧ A.First (weighedAdjectives.parse ["big", "dog"]) ∧
        x.weight = ((A.trees (weighedAdjectives.parse ["big", "dog"]) x.tree).map
          fun t => t.rule.weight).prod := by
  have hlength : 0 < (weighedAdjectives.parse ["big", "dog"]).accepting.length := by
    decide +kernel
  have hweight : (weighedAdjectives.parse ["big", "dog"]).accepting[0].weight = 1 / 6 := by
    decide +kernel +revert
  have hmem := List.getElem_mem hlength
  have hitem := Chart.mem_items_of_mem_accepting hmem
  obtain ⟨⟨A, ⟨hA, hfirst⟩, -⟩, hprod⟩ := weights_parse.2 weighedAdjectives ["big", "dog"] _ hmem
  exact ⟨_, hmem, hweight, weights_parse.1 weighedAdjectives ["big", "dog"] _ hitem, A, hA, hfirst,
    hprod A hA hfirst⟩

end Grammar

end TreeInsertion
