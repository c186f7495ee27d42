import Mathlib.Data.Fintype.EquivFin
import TreeInsertion.Proofs.Forest.Cycles

/-!
# Enumeration without a memory

A chart whose derivations form no cycle can be unpacked by plain recursion, item by item,
without anything kept and without any cut.  Unpacking finds the same analyses in the same
order: whatever it has kept of an item is what the recursion gives, and no item comes up
again while it is being unpacked.
-/

namespace TreeInsertion

namespace Chart

open Relation

variable {W : Type} {c : Chart W}

def Acyclic (c : Chart W) : Prop :=
  ∀ id, ¬ TransGen c.IsAntecedent id id

theorem acyclic_of_cycleFree (h : ∀ id, c.CycleFree id) : c.Acyclic :=
  fun id => h id id .refl

theorem lt_size_of_antecedent {id a : Nat} (h : c.IsAntecedent id a) : id < c.items.size := by
  obtain ⟨why, hwhy, -⟩ := List.mem_flatMap.1 h
  obtain ⟨x, hx, -⟩ := mem_derivationsOf hwhy
  exact (Array.getElem?_eq_some_iff.1 hx).1

/-- Going back ends after finitely many steps, since the chart has finitely many items. -/
theorem Acyclic.wellFounded (h : c.Acyclic) :
    WellFounded fun a id => c.IsAntecedent id a := by
  let below := fun i j : Fin c.items.size => TransGen c.IsAntecedent j i
  have htrans : IsTrans _ below := ⟨fun _ _ _ hij hjk => hjk.trans hij⟩
  have hirrefl : Std.Irrefl below := ⟨fun i => h i⟩
  have hacc (i : Fin c.items.size) : Acc (fun a id => c.IsAntecedent id a) i := by
    induction i using (Finite.wellFounded_of_trans_of_irrefl below).induction with
    | _ i ih =>
        refine ⟨_, fun a ha => ?_⟩
        by_cases hlt : a < c.items.size
        · exact ih ⟨a, hlt⟩ (.single ha)
        · exact ⟨_, fun b hb => absurd (lt_size_of_antecedent hb) hlt⟩
  refine ⟨fun id => ⟨_, fun a ha => ?_⟩⟩
  exact (hacc ⟨id, lt_size_of_antecedent ha⟩).inv ha

/-! ## The enumeration -/

/--
The analyses of an item by recursion over its derivations: for each of them every choice of
one analysis per antecedent, with the edge of the derivation last.
-/
def enumerate (c : Chart W) (h : c.Acyclic) : Nat → List (Analysis W) :=
  h.wellFounded.fix fun id analyses =>
    (c.derivationsOf id).attach.flatMap fun why =>
      (ways (why.val.antecedents.attach.map fun a =>
        analyses a.val (List.mem_flatMap.2 ⟨why.val, why.property, a.property⟩))).map fun way =>
          way.flatten ++ (c.edgeOf? why.val).toList

theorem enumerate_eq (h : c.Acyclic) (id : Nat) :
    c.enumerate h id = (c.derivationsOf id).flatMap fun why =>
      (ways (why.antecedents.map (c.enumerate h))).map fun way =>
        way.flatten ++ (c.edgeOf? why).toList := by
  rw [enumerate, WellFounded.fix_eq]
  simp [List.flatMap_def]

/-- The enumeration without the list of choices, the first antecedent changing fastest. -/
theorem enumerate_eq_foldr (h : c.Acyclic) (id : Nat) :
    c.enumerate h id = (c.derivationsOf id).flatMap fun why =>
      (why.antecedents.foldr (fun a rests => rests.flatMap fun rest =>
        (c.enumerate h a).map (· ++ rest)) [[]]).map (· ++ (c.edgeOf? why).toList) := by
  rw [enumerate_eq]
  simp only [← map_flatten_ways, List.map_map, Function.comp_def]

/-- The numbers of analyses add up over derivations and multiply over antecedents. -/
theorem length_enumerate (h : c.Acyclic) (id : Nat) :
    (c.enumerate h id).length = ((c.derivationsOf id).map fun why =>
      (why.antecedents.map fun a => (c.enumerate h a).length).prod).sum := by
  rw [enumerate_eq, List.length_flatMap]
  simp [length_ways, Function.comp_def]

theorem enumerate_of_size_le (h : c.Acyclic) {id : Nat} (hid : c.items.size ≤ id) :
    c.enumerate h id = [] := by
  rw [enumerate_eq, derivationsOf, Array.getElem?_eq_none hid]
  rfl

/-! ## Unpacking finds what is enumerated -/

def Exact (c : Chart W) (h : c.Acyclic) (id : Nat) (analyses : List (Analysis W)) : Prop :=
  analyses = c.enumerate h id

/-- Whether nothing that the item goes back to is being unpacked. -/
def Unhindered (c : Chart W) (free : List Nat) (id : Nat) : Prop :=
  ∀ a, ReflTransGen c.IsAntecedent id a → a < c.items.size → a ∈ free

theorem unhindered_range (c : Chart W) (id : Nat) :
    c.Unhindered (List.range c.items.size) id :=
  fun _ _ hlt => List.mem_range.2 hlt

/-- An item does not come up among those that it goes back to. -/
theorem Unhindered.antecedent (hacyclic : c.Acyclic) {free : List Nat} {id a : Nat}
    (h : c.Unhindered free id) (ha : c.IsAntecedent id a) : c.Unhindered (free.erase id) a := by
  intro b hb hlt
  have hne : b ≠ id := fun heq => hacyclic id (.head' ha (heq ▸ hb))
  exact (List.mem_erase_of_ne hne).2 (h b (.head ha hb) hlt)

theorem eq_map_of_exact (h : c.Acyclic) {ids : List Nat} {parts : List (List (Analysis W))}
    (hparts : List.Forall₂ (c.Exact h) ids parts) : parts = ids.map (c.enumerate h) := by
  induction hparts with
  | nil => rfl
  | cons hpart _ ih => rw [List.map_cons, ← ih, ← hpart]

theorem exact_of_forall₂ (h : c.Acyclic) {id : Nat} {parts : List (List (List (Analysis W)))}
    (hparts : List.Forall₂ (fun why parts => List.Forall₂ (c.Exact h) why.antecedents parts)
      (c.derivationsOf id) parts) :
    c.Exact h id (List.zipWith c.analysesOf (c.derivationsOf id) parts).flatten := by
  rw [Exact, enumerate_eq]
  generalize c.derivationsOf id = whys at hparts
  induction hparts with
  | nil => rfl
  | cons hpart _ ih =>
      rw [List.zipWith_cons_cons, List.flatten_cons, List.flatMap_cons, ih, analysesOf_eq,
        eq_map_of_exact h hpart]

theorem exact_unpack (h : c.Acyclic) {free : List Nat} {id : Nat} {known : Unpacked W}
    (hid : c.Unhindered free id) (hknown : AllKnown (c.Exact h) known) :
    c.Exact h id (c.unpack free id known).1 ∧
      AllKnown (c.Exact h) (c.unpack free id known).2 := by
  refine unpack_induction c.Unhindered ?_ ?_ (fun _ _ => exact_of_forall₂ h) hid hknown
  · exact fun _ _ _ hfree _ ha => hfree.antecedent h ha
  · intro free id hfree hopen
    have hle : c.items.size ≤ id := Nat.not_lt.1 fun hlt => hfree (hopen id .refl hlt)
    exact (enumerate_of_size_le h hle).symm

/-! ## The visits of an unpacking -/

/-- What an item is unpacked with: the items that are free, and what is known by then. -/
structure Visit (W : Type) where
  free : List Nat
  id : Nat
  known : Unpacked W

/--
The visits that an item makes to its antecedents while it is unpacked, each with what is
known after the derivations before and after the antecedents before.
-/
inductive Visit.Makes (c : Chart W) : Visit W → Visit W → Prop where
  | mk {free : List Nat} {id : Nat} {known : Unpacked W} {whys whys' : List Derivation}
      {why : Derivation} {as as' : List Nat} {a : Nat} (hknown : known[id]? = none)
      (hfree : id ∈ free) (hwhys : c.derivationsOf id = whys ++ why :: whys')
      (has : why.antecedents = as ++ a :: as') :
      Makes c ⟨free, id, known⟩ ⟨free.erase id, a,
        (collectFrom (c.unpack (free.erase id)) (fun _ analyses => [analyses]) as
          (collectFrom (c.unpackParts (free.erase id)) c.analysesOf whys known).2).2⟩

def knownAfter (c : Chart W) (items : List (Item W)) : Unpacked W :=
  items.foldl (fun known x => (c.unpack (List.range c.items.size) x.id known).2) ∅

/-- The visits while the readings are unpacked: those to the accepted items, and on from them. -/
inductive Visits (c : Chart W) : Visit W → Prop where
  | accepted {items items' : List (Item W)} {x : Item W}
      (hitems : c.accepting = items ++ x :: items') :
      Visits c ⟨List.range c.items.size, x.id, c.knownAfter items⟩
  | antecedent {v w : Visit W} (hv : Visits c v) (hw : v.Makes c w) : Visits c w

theorem exact_unpackAll (h : c.Acyclic) (items : List (Item W)) {known : Unpacked W}
    (hknown : AllKnown (c.Exact h) known) :
    c.unpackAll items known = items.flatMap fun x =>
      (c.enumerate h x.id).map fun analysis => (x, analysis) := by
  induction items generalizing known with
  | nil => rfl
  | cons x rest ih =>
      obtain ⟨hx, hrest⟩ := exact_unpack h (c.unhindered_range x.id) hknown
      rw [List.flatMap_cons, ← ih hrest, ← hx]
      rfl

theorem readings_eq_enumerate {H : Type} (h : c.Acyclic) :
    (c.readings : List (Forest W H)) = c.accepting.flatMap fun x =>
      (c.enumerate h x.id).map fun analysis =>
        analysis.foldl (fun f e => (f.addEdge e).2) (Forest.empty.addNode x.tree).2 := by
  rw [readings, exact_unpackAll h _ (allKnown_empty _), List.map_flatMap]
  simp [Function.comp_def, readingOf]

theorem exact_knownAfter (h : c.Acyclic) (items : List (Item W)) :
    AllKnown (c.Exact h) (c.knownAfter items) := by
  have hfold (known : Unpacked W) (hknown : AllKnown (c.Exact h) known) : AllKnown (c.Exact h)
      (items.foldl (fun known x => (c.unpack (List.range c.items.size) x.id known).2) known) := by
    induction items generalizing known with
    | nil => exact hknown
    | cons x rest ih => exact ih _ (exact_unpack h (c.unhindered_range x.id) hknown).2
  exact hfold ∅ (allKnown_empty _)

structure Visit.Clear (c : Chart W) (h : c.Acyclic) (v : Visit W) : Prop where
  known : AllKnown (c.Exact h) v.known
  free : c.Unhindered v.free v.id

theorem Visit.Makes.isAntecedent {v w : Visit W} (hmakes : v.Makes c w) :
    c.IsAntecedent v.id w.id := by
  obtain @⟨_, id, _, whys, whys', why, as, as', a, -, -, hwhys, has⟩ := hmakes
  exact List.mem_flatMap.2 ⟨why, by simp [hwhys], by simp [has]⟩

theorem Visit.Makes.clear {h : c.Acyclic} {v w : Visit W} (hmakes : v.Makes c w)
    (hv : v.Clear c h) : w.Clear c h := by
  obtain @⟨free, id, known, whys, whys', why, as, as', a, -, -, hwhys, has⟩ := hmakes
  have hfree (d : Derivation) (hd : d ∈ c.derivationsOf id) (b : Nat) (hb : b ∈ d.antecedents) :
      c.Unhindered (free.erase id) b :=
    hv.free.antecedent h (List.mem_flatMap.2 ⟨d, hd, hb⟩)
  have hwhy : why ∈ c.derivationsOf id := by simp [hwhys]
  have hderivations : AllKnown (c.Exact h)
      (collectFrom (c.unpackParts (free.erase id)) c.analysesOf whys known).2 := by
    refine collectFrom_keeps _ (fun d hd _ hkeeps => ?_) hv.known
    have hmem : d ∈ c.derivationsOf id := by simp [hwhys, hd]
    exact (unpackParts_spec (fun b hb _ => exact_unpack h (hfree d hmem b hb)) hkeeps).2
  refine ⟨collectFrom_keeps _ (fun b hb _ hkeeps => ?_) hderivations,
    hfree why hwhy a (by simp [has])⟩
  exact (exact_unpack h (hfree why hwhy b (by simp [has, hb])) hkeeps).2

theorem Visits.clear (h : c.Acyclic) {v : Visit W} (hv : c.Visits v) : v.Clear c h := by
  induction hv with
  | accepted _ => exact ⟨exact_knownAfter h _, c.unhindered_range _⟩
  | antecedent _ hw ih => exact hw.clear ih

section Derived

variable [Mul W] {input : List String}

theorem Visits.lt_size (hderived : ∀ x ∈ c.items, Derived input c x)
    (haccepting : ∀ x ∈ c.accepting, x.id < c.items.size) {v : Visit W} (hv : c.Visits v) :
    v.id < c.items.size := by
  cases hv with
  | accepted hitems => exact haccepting _ (by simp [hitems])
  | antecedent _ hw => exact lt_size_of_isAntecedent hderived hw.isAntecedent

end Derived

end Chart

namespace Grammar

variable {W H : Type}

/--
The readings of a chart without cycles are the forests built from the analyses that the plain
enumeration gives, in its order: the tree of the accepted item first, then one edge after
another.  Whenever an item comes up meanwhile, either its analyses are known and they are the
enumerated ones, or it is free; and the analyses that are found then are the enumerated ones.
The numbers of analyses are sums of products.
-/
theorem readings_of_acyclic [One W] [Mul W] (g : Grammar W) (input : List String)
    (h : (g.parse input).Acyclic) :
    ((g.parse input).readings : List (Forest W H)) =
        ((g.parse input).accepting.flatMap fun x =>
          ((g.parse input).enumerate h x.id).map fun analysis =>
            analysis.foldl (fun f e => (f.addEdge e).2) (Forest.empty.addNode x.tree).2) ∧
      (∀ id, (g.parse input).enumerate h id =
        ((g.parse input).derivationsOf id).flatMap fun why =>
          (why.antecedents.foldr (fun a rests => rests.flatMap fun rest =>
            ((g.parse input).enumerate h a).map (· ++ rest)) [[]]).map
              (· ++ ((g.parse input).edgeOf? why).toList)) ∧
      (∀ v, (g.parse input).Visits v →
        (∀ id analyses, v.known[id]? = some analyses →
          analyses = (g.parse input).enumerate h id) ∧
        v.id ∈ v.free ∧
        ((g.parse input).unpack v.free v.id v.known).1 = (g.parse input).enumerate h v.id) ∧
      ∀ id, ((g.parse input).enumerate h id).length =
        (((g.parse input).derivationsOf id).map fun why =>
          (why.antecedents.map fun a => ((g.parse input).enumerate h a).length).prod).sum := by
  have hderived := (g.reached_parse input).derived (g.sound_select input)
  refine ⟨Chart.readings_eq_enumerate h, Chart.enumerate_eq_foldr h, fun v hv => ?_,
    Chart.length_enumerate h⟩
  have hclear := hv.clear h
  have hlt := hv.lt_size hderived fun x => lt_size_of_mem_accepting
  exact ⟨hclear.known, hclear.free v.id .refl hlt,
    (Chart.exact_unpack h hclear.free hclear.known).1⟩

def twoSenses : Grammar Nat :=
  ⟨[⟨0, [⟨⟨[0]⟩, [⟨.nonterminal, "S"⟩, ⟨.substitution, "N"⟩, ⟨.terminal, "sleeps"⟩]⟩], ["sleeps"],
      1, 1, none⟩,
    ⟨1, [⟨⟨[0]⟩, [⟨.nonterminal, "N"⟩, ⟨.terminal, "bat"⟩]⟩], ["bat"], 1, 1, none⟩,
    ⟨2, [⟨⟨[0]⟩, [⟨.nonterminal, "N"⟩, ⟨.terminal, "bat"⟩]⟩], ["bat"], 1, 1, none⟩],
    SymbolSet.ofList ["S"], by decide, by decide⟩

theorem acyclic_two_senses : (twoSenses.parse ["bat", "sleeps"]).Acyclic :=
  Chart.acyclic_of_cycleFree
    (Chart.cycleFree_of_lt (twoSenses.parse ["bat", "sleeps"]) (by decide +kernel))

def sensesWithAdjective : Grammar Nat :=
  ⟨twoSenses.rules ++ [⟨3, [⟨⟨[0]⟩, [⟨.nonterminal, "N"⟩, ⟨.terminal, "big"⟩, ⟨.foot, "N"⟩]⟩],
      ["big"], 1, 1, some ⟨[0]⟩⟩],
    SymbolSet.ofList ["S"], by decide, by decide⟩

theorem readings_two_senses :
    ∃ h : (sensesWithAdjective.parse ["big", "bat", "sleeps"]).Acyclic,
      (((sensesWithAdjective.parse ["big", "bat", "sleeps"]).readings :
          List (Forest Nat Unit)).map fun f =>
            (f.trees.map fun t => (t.id, t.rule.index), f.edges.map Edge.key)) =
        [([(3, 0), (1, 1), (0, 3)],
            [⟨1, 0, ⟨[0]⟩, .adjunction ⟨[0]⟩⟩, ⟨3, 1, ⟨[0, 1]⟩, .substitution⟩]),
          ([(3, 0), (2, 2), (0, 3)],
            [⟨2, 0, ⟨[0]⟩, .adjunction ⟨[0]⟩⟩, ⟨3, 2, ⟨[0, 1]⟩, .substitution⟩])] ∧
      ((sensesWithAdjective.parse ["big", "bat", "sleeps"]).readings :
          List (Forest Nat Unit)) =
        (sensesWithAdjective.parse ["big", "bat", "sleeps"]).accepting.flatMap fun x =>
          ((sensesWithAdjective.parse ["big", "bat", "sleeps"]).enumerate h x.id).map
            fun analysis =>
              analysis.foldl (fun f e => (f.addEdge e).2) (Forest.empty.addNode x.tree).2 := by
  have hacyclic : (sensesWithAdjective.parse ["big", "bat", "sleeps"]).Acyclic :=
    Chart.acyclic_of_cycleFree (Chart.cycleFree_of_lt _ (by decide +kernel))
  exact ⟨hacyclic, by decide +kernel, (readings_of_acyclic sensesWithAdjective _ hacyclic).1⟩

end Grammar

end TreeInsertion
