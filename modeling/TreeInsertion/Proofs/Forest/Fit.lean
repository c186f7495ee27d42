import TreeInsertion.Proofs.Forest.Packing

/-!
# Edges that fit

An edge is made after the analysis, from the numbers of two items.  It tells what the
step of the analysis saw nevertheless: an initial tree at a leaf with its root symbol,
or an auxiliary tree at a node with its root symbol.
-/

namespace TreeInsertion

variable {W H K : Type}

/-- Whether the edge puts two trees of the selection together in a way that they allow. -/
inductive Edge.Fits (sel : Selection W) : Edge (AnchoredTree W) → Prop where
  | substitution {t u : AnchoredTree W} {l : Layer} {d : Nat} (ht : t ∈ sel.trees)
      (hu : u ∈ sel.trees) (hother : t.id ≠ u.id) (hl : l ∈ t.rule.layers) (hchild : 1 ≤ d)
      (hleaf : l.entry? d = some ⟨.substitution, u.root⟩) (hinitial : u.isInitial = true) :
      Fits sel ⟨t, u, l.address.child d, .substitution⟩
  | adjunction {t u : AnchoredTree W} {l : Layer} {spine : Address} (ht : t ∈ sel.trees)
      (hu : u ∈ sel.trees) (hl : l ∈ t.rule.layers) (hlabel : l.hasLabel u.root = true)
      (hsite : t.isInitial = true ∨ l.address ≠ .root) (hauxiliary : u.isAuxiliary = true)
      (hspine : u.rule.spine = some spine) :
      Fits sel ⟨t, u, spine, .adjunction l.address⟩

namespace Chart

/-! ## From a step to its edge -/

section Steps

variable {sel : Selection W} {starts : SymbolSet} {input : List String} {c : Chart W}

theorem fits_of_substitution {n : Nat} (hinv : c.Inv sel starts n) {p d : Item W}
    (hp : c.Holds p) (hd : c.Holds d) (hnext : p.next? = some ⟨.substitution, d.tree.root⟩)
    (hinitial : d.tree.isInitial = true) (hother : p.tree.id ≠ d.tree.id)
    {e : Edge (AnchoredTree W)} (hedge : c.edgeOf? (.substitution p.id d.id) = some e) :
    e.Fits sel := by
  rw [edgeOf?_substitution hp hd] at hedge
  cases hedge
  have hvp := hinv.valid_of_holds hp
  exact .substitution hvp.tree (hinv.valid_of_holds hd).tree hother p.current_mem hvp.dot_pos hnext
    hinitial

/-- On either side the node of the host has the root symbol of the auxiliary tree. -/
theorem fits_of_adjunction {n : Nat} (hinv : c.Inv sel starts n) {h a : Item W} {side : Side}
    (hh : c.Holds h) (ha : c.Holds a) (hhost : isHost a.tree.root h = true)
    (haux : isFinishedAuxiliary a.tree.root side a = true) {e : Edge (AnchoredTree W)}
    (hedge : c.edgeOf? (.adjunction h.id a.id) = some e) : e.Fits sel := by
  obtain ⟨spine, hspine⟩ := exists_spine_of_isFinishedAuxiliary haux
  obtain ⟨-, hsite, hlabel⟩ := isHost_iff.1 hhost
  have hauxiliary : a.tree.isAuxiliary = true := by
    rw [AnchoredTree.isAuxiliary, Rule.isAuxiliary, hspine, Option.isSome_some]
  rw [edgeOf?_adjunction hh ha hspine] at hedge
  cases hedge
  refine .adjunction (hinv.valid_of_holds hh).tree (hinv.valid_of_holds ha).tree h.current_mem
    hlabel ?_ hauxiliary hspine
  rw [Item.isAdjunctionSite, Bool.or_eq_true] at hsite
  refine hsite.imp_right fun hinner hroot => ?_
  simp [Item.isRootLayer_iff.2 hroot] at hinner

/-- The edge of a step fits, whichever item the chart files the step under. -/
theorem Step.fits [Mul W] (hinv : c.Inv sel starts input.length) {x : Item W} {why : Derivation}
    (hstep : Step input c.Holds x why) {e : Edge (AnchoredTree W)}
    (hedge : c.edgeOf? why = some e) : e.Fits sel := by
  cases hstep with
  | scan _ _ _ _ => cases hedge
  | foot _ _ => cases hedge
  | complete _ _ _ _ _ _ _ => cases hedge
  | substitution hp hd hnext _ _ hinitial hother _ =>
      exact fits_of_substitution hinv hp hd hnext hinitial hother hedge
  | right hh ha hhost _ haux _ => exact fits_of_adjunction hinv hh ha hhost haux hedge
  | left hh ha hhost haux _ => exact fits_of_adjunction hinv hh ha hhost haux hedge

theorem fits_of_mem_edgesOf [Mul W] (hinv : c.Inv sel starts input.length)
    (hderived : ∀ x ∈ c.items, Derived input c x) (id : Nat) :
    ∀ e ∈ c.edgesOf id, e.Fits sel := by
  intro e he
  obtain ⟨why, hwhy, hedge⟩ := List.mem_filterMap.1 he
  obtain ⟨x, hx, hwhy⟩ := mem_derivationsOf hwhy
  rcases (hderived x (Array.mem_of_getElem? hx)).explained why hwhy with ⟨rfl, -⟩ | ⟨y, hstep, -⟩
  · cases hedge
  · exact hstep.fits hinv hedge

end Steps

/-! ## The edges of readings -/

def Sourced (c : Chart W) (_ : Nat) (analyses : List (Analysis W)) : Prop :=
  ∀ analysis ∈ analyses, ∀ e ∈ analysis, ∃ id, e ∈ c.edgesOf id

theorem sourced_analysesOf {c : Chart W} {id : Nat} {why : Derivation}
    (hwhy : why ∈ c.derivationsOf id) {parts : List (List (Analysis W))}
    (hparts : List.Forall₂ c.Sourced why.antecedents parts) :
    c.Sourced id (c.analysesOf why parts) := by
  intro analysis hanalysis e he
  rw [analysesOf_eq] at hanalysis
  obtain ⟨way, hway, rfl⟩ := List.mem_map.1 hanalysis
  rcases List.mem_append.1 he with hpart | hown
  · obtain ⟨part, hmem, he⟩ := List.mem_flatten.1 hpart
    obtain ⟨analyses, hanalyses, hmem⟩ := exists_mem_of_mem_way hway hmem
    obtain ⟨a, -, hsourced⟩ := exists_of_mem_right hparts hanalyses
    exact hsourced part hmem e he
  · exact ⟨id, List.mem_filterMap.2 ⟨why, hwhy, by simpa using hown⟩⟩

/-- Where a cycle is cut there is no analysis, and so no edge. -/
theorem sourced_unpack {c : Chart W} {free : List Nat} {id : Nat} {known : Unpacked W}
    (hknown : AllKnown c.Sourced known) :
    c.Sourced id (c.unpack free id known).1 ∧ AllKnown c.Sourced (c.unpack free id known).2 := by
  refine unpack_induction (fun _ _ => True) ?_ ?_ ?_ trivial hknown
  · exact fun _ _ _ _ _ _ => trivial
  · exact fun _ _ _ _ _ hnone => absurd hnone List.not_mem_nil
  · intro id parts hparts analysis hanalysis
    obtain ⟨analyses, hmem, hanalysis⟩ := List.mem_flatten.1 hanalysis
    obtain ⟨why, hwhy, part, hpart, rfl⟩ := exists_of_mem_zipWith hparts hmem
    exact sourced_analysesOf hwhy hpart analysis hanalysis

theorem exists_edgesOf_of_mem_readings {c : Chart W} {f : Forest W H}
    (hf : f ∈ (c.readings : List (Forest W H))) {e : Edge (AnchoredTree W)} (he : e ∈ f.edges) :
    ∃ id, e ∈ c.edgesOf id := by
  obtain ⟨unpacked, -, hsourced, heq⟩ :=
    unpackAll_spec c.accepting (fun _ _ _ => sourced_unpack) (allKnown_empty _)
  rw [readings, heq] at hf
  obtain ⟨p, hp, rfl⟩ := List.mem_map.1 hf
  obtain ⟨u, hu, hp⟩ := List.mem_flatMap.1 hp
  obtain ⟨analysis, hanalysis, rfl⟩ := List.mem_map.1 hp
  change e ∈ (readingOf u.1.tree analysis).edges at he
  rw [readingOf_eq] at he
  rcases Forest.mem_edges_addAll he with hroot | he
  · rw [Forest.edges_addNode] at hroot
    cases hroot
  · exact hsourced u hu analysis hanalysis e he

end Chart

namespace Grammar

/--
The edges of the packed forest and of every reading fit.  A connector of a substitution
leads to a leaf of the first tree that the second one, an initial tree other than it, may
stand for.  A connector of an adjunction is the spine of the second tree, an auxiliary one,
and its site is a node of the first tree with the same symbol, though not the root of
another auxiliary tree.
-/
theorem edges_fit [One W] [Mul W] (g : Grammar W) (input : List String) :
    (∀ e ∈ ((g.parse input).packedForest : Forest W H).edges, e.Fits (g.select input)) ∧
      ∀ f ∈ ((g.parse input).readings : List (Forest W K)), ∀ e ∈ f.edges,
        e.Fits (g.select input) := by
  have hsel := g.sound_select input
  have hinv := (g.reached_parse input).inv hsel
  have hfits := Chart.fits_of_mem_edgesOf hinv ((g.reached_parse input).derived hsel)
  constructor
  · intro e he
    obtain ⟨id, -, he⟩ := ((Chart.comprises_packedForest hsel hinv).edges e).1 he
    exact hfits id e he
  · intro f hf e he
    obtain ⟨id, he⟩ := Chart.exists_edgesOf_of_mem_readings hf he
    exact hfits id e he

def describedSubject : Grammar Nat :=
  ⟨[⟨0, [⟨⟨[0]⟩, [⟨.nonterminal, "S"⟩, ⟨.substitution, "N"⟩, ⟨.terminal, "barks"⟩]⟩], ["barks"],
      1, 1, none⟩,
    ⟨1, [⟨⟨[0]⟩, [⟨.nonterminal, "N"⟩, ⟨.terminal, "dog"⟩]⟩], ["dog"], 1, 1, none⟩,
    ⟨2, [⟨⟨[0]⟩, [⟨.nonterminal, "N"⟩, ⟨.terminal, "big"⟩, ⟨.foot, "N"⟩]⟩], ["big"], 1, 1,
      some ⟨[0]⟩⟩],
    SymbolSet.ofList ["S"], by decide, by decide⟩

theorem edges_fit_big_dog_barks :
    ∃ f ∈ ((describedSubject.parse ["big", "dog", "barks"]).readings : List (Forest Nat Unit)),
      ∃ d ∈ f.edges, ∃ e ∈ f.edges, d.isAdjunction = false ∧ e.isAdjunction = true ∧
        d.Fits (describedSubject.select ["big", "dog", "barks"]) ∧
          e.Fits (describedSubject.select ["big", "dog", "barks"]) := by
  have hkinds : ((describedSubject.parse ["big", "dog", "barks"]).readings :
      List (Forest Nat Unit)).map (fun f => f.edges.map Edge.isAdjunction) = [[true, false]] := by
    decide +kernel
  obtain ⟨f, rest, hreadings, hedges, -⟩ := List.map_eq_cons_iff.1 hkinds
  have hf : f ∈ (describedSubject.parse ["big", "dog", "barks"]).readings :=
    hreadings ▸ List.mem_cons_self
  obtain ⟨e, edges, hcons, he, hlast⟩ := List.map_eq_cons_iff.1 hedges
  obtain ⟨d, rfl, hd⟩ := List.map_eq_singleton_iff.1 hlast
  have hfits := (edges_fit (H := Unit) describedSubject _).2 f hf
  rw [hcons] at hfits
  exact ⟨f, hf, d, by simp [hcons], e, by simp [hcons], hd, he, hfits d (by simp),
    hfits e (by simp)⟩

end Grammar

end TreeInsertion
