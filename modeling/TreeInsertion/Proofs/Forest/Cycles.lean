import TreeInsertion.Proofs.Chart.Derivations
import TreeInsertion.Proofs.Forest.Insertion
import TreeInsertion.Proofs.Forest.Unpacking

/-!
# Readings and cycles

Unpacking cuts a cycle of derivations where it closes, and keeps what it has found
within the cycle.  An accepted item that goes back to no cycle has a reading all the
same, whatever else is unpacked before it.  In a cycle readings can be lost, all of
them in the end.
-/

namespace TreeInsertion

namespace Chart

open Relation

variable {W : Type}

def IsAntecedent (c : Chart W) (id a : Nat) : Prop :=
  a ∈ c.antecedentsOf id

/-- Whether nothing that the item goes back to goes back to itself. -/
def CycleFree (c : Chart W) (id : Nat) : Prop :=
  ∀ a, ReflTransGen c.IsAntecedent id a → ¬ TransGen c.IsAntecedent a a

theorem CycleFree.of_isAntecedent {c : Chart W} {id a : Nat} (h : c.CycleFree id)
    (ha : c.IsAntecedent id a) : c.CycleFree a :=
  fun b hb => h b (.head ha hb)

theorem mem_derivationsOf {c : Chart W} {id : Nat} {why : Derivation}
    (h : why ∈ c.derivationsOf id) : ∃ x, c.items[id]? = some x ∧ why ∈ x.derivations := by
  unfold derivationsOf at h
  split at h
  · exact ⟨_, ‹_›, h⟩
  · cases h

/-- If all antecedents have smaller numbers, there is no cycle. -/
theorem cycleFree_of_lt (c : Chart W)
    (h : ∀ id < c.items.size, ∀ a ∈ c.antecedentsOf id, a < id) (id : Nat) :
    c.CycleFree id := by
  have hlt {b a : Nat} (hba : c.IsAntecedent b a) : a < b := by
    obtain ⟨why, hwhy, -⟩ := List.mem_flatMap.1 hba
    obtain ⟨x, hx, -⟩ := mem_derivationsOf hwhy
    exact h b (Array.getElem?_eq_some_iff.1 hx).1 a hba
  intro a _ hcycle
  have hless {b d : Nat} (hbd : TransGen c.IsAntecedent b d) : d < b := by
    induction hbd with
    | single h' => exact hlt h'
    | tail _ h' ih => exact Nat.lt_trans (hlt h') ih
  exact Nat.lt_irrefl a (hless hcycle)

section Derived

variable [Mul W] {input : List String} {c : Chart W}

theorem lt_size_of_isAntecedent (hderived : ∀ x ∈ c.items, Derived input c x) {id a : Nat}
    (h : c.IsAntecedent id a) : a < c.items.size := by
  obtain ⟨why, hwhy, ha⟩ := List.mem_flatMap.1 h
  obtain ⟨x, hx, hwhy⟩ := mem_derivationsOf hwhy
  rcases (hderived x (Array.mem_of_getElem? hx)).explained why hwhy with ⟨rfl, -⟩ | ⟨y, hstep, -⟩
  · cases ha
  · obtain ⟨z, hz, rfl⟩ := hstep.exists_of_mem_antecedents ha
    exact (Array.getElem?_eq_some_iff.1 hz).1

theorem derivationsOf_ne_nil (hderived : ∀ x ∈ c.items, Derived input c x) {id : Nat}
    (h : id < c.items.size) : c.derivationsOf id ≠ [] := by
  rw [derivationsOf, Array.getElem?_eq_getElem h]
  exact (hderived _ (Array.getElem_mem h)).ne_nil

/-- What is found of an item that goes back to no cycle is something. -/
def FoundUnlessCyclic (c : Chart W) (id : Nat) (analyses : List (Analysis W)) : Prop :=
  id < c.items.size → c.CycleFree id → analyses ≠ []

theorem foundUnlessCyclic_unpack (hderived : ∀ x ∈ c.items, Derived input c x) {id : Nat}
    {known : Unpacked W} (hknown : AllKnown c.FoundUnlessCyclic known) :
    c.FoundUnlessCyclic id (c.unpack (List.range c.items.size) id known).1 ∧
      AllKnown c.FoundUnlessCyclic (c.unpack (List.range c.items.size) id known).2 := by
  refine unpack_induction (fun free id => ∀ a, ReflTransGen c.IsAntecedent id a →
    a < c.items.size → c.CycleFree a → a ∈ free) ?_ ?_ ?_ ?_ hknown
  · intro free id _ hopen a ha b hb hlt hcycle
    -- the item itself is not met again, since it would lie on a cycle
    have hne : b ≠ id := fun heq =>
      hcycle b .refl (heq ▸ TransGen.head' ha (heq ▸ hb))
    exact (List.mem_erase_of_ne hne).2 (hopen b (.head ha hb) hlt hcycle)
  · intro free id hfree hopen hlt hcycle
    exact absurd (hopen id .refl hlt hcycle) hfree
  · intro id parts hparts hlt hcycle
    obtain ⟨why, whys, hderivations⟩ :=
      List.exists_cons_of_ne_nil (derivationsOf_ne_nil hderived hlt)
    have hantecedent (a : Nat) (ha : a ∈ why.antecedents) : c.IsAntecedent id a :=
      List.mem_flatMap.2 ⟨why, hderivations ▸ List.mem_cons_self, ha⟩
    rw [hderivations] at hparts ⊢
    obtain ⟨first, rest, hfirst, -, rfl⟩ := List.forall₂_cons_left_iff.1 hparts
    have hways : ways first ≠ [] := ways_ne_nil fun analyses hmem => by
      obtain ⟨a, ha, hgood⟩ := exists_of_mem_right hfirst hmem
      exact hgood (lt_size_of_isAntecedent hderived (hantecedent a ha))
        (hcycle.of_isAntecedent (hantecedent a ha))
    rw [List.zipWith_cons_cons, List.flatten_cons, analysesOf_eq]
    simp [hways]
  · intro a _ hlt _
    exact List.mem_range.2 hlt

/-- Among the analyses of several items are some of each that goes back to no cycle. -/
theorem exists_analysis_of_cycleFree (hderived : ∀ x ∈ c.items, Derived input c x)
    {items : List (Item W)} {x : Item W} (hx : x ∈ items) (hlt : x.id < c.items.size)
    (hcycle : c.CycleFree x.id) : ∃ analysis, (x, analysis) ∈ c.unpackAll items ∅ := by
  obtain ⟨unpacked, rfl, hgood, heq⟩ :=
    unpackAll_spec items (fun _ _ _ => foundUnlessCyclic_unpack hderived)
      (allKnown_empty _)
  obtain ⟨u, hu, rfl⟩ := List.mem_map.1 hx
  obtain ⟨analysis, hanalysis⟩ := List.exists_mem_of_ne_nil _ (hgood u hu hlt hcycle)
  rw [heq]
  exact ⟨analysis, List.mem_flatMap.2 ⟨u, hu, List.mem_map_of_mem hanalysis⟩⟩

end Derived

end Chart

namespace Grammar

variable {W H : Type}

theorem lt_size_of_mem_accepting {g : Grammar W} {input : List String} [One W] [Mul W]
    {x : Item W} (hx : x ∈ (g.parse input).accepting) : x.id < (g.parse input).items.size :=
  ((g.reached_parse input).inv (g.sound_select input)).filed.id_lt_size
    (Chart.mem_items_of_mem_accepting hx)

/-- A tree that takes itself in, through trees that cover nothing. -/
def selfEmbedding : Grammar Nat :=
  ⟨[⟨0, [⟨⟨[0]⟩, [⟨.nonterminal, "S"⟩, ⟨.substitution, "E"⟩, ⟨.substitution, "C"⟩]⟩], ["b"], 1, 1,
      none⟩,
    ⟨1, [⟨⟨[0]⟩, [⟨.nonterminal, "E"⟩]⟩], ["b"], 1, 1, none⟩,
    ⟨2, [⟨⟨[0]⟩, [⟨.nonterminal, "E"⟩, ⟨.substitution, "S"⟩]⟩], ["b"], 1, 1, none⟩,
    ⟨3, [⟨⟨[0]⟩, [⟨.nonterminal, "C"⟩]⟩], ["b"], 1, 1, none⟩,
    ⟨4, [⟨⟨[0]⟩, [⟨.nonterminal, "C"⟩, ⟨.substitution, "S"⟩, ⟨.terminal, "b"⟩]⟩], ["b"], 1, 1,
      none⟩],
    SymbolSet.ofList ["S"], by decide, by decide⟩

theorem accepted_without_reading :
    (selfEmbedding.parse ["b"]).accepts = true ∧
      ((selfEmbedding.parse ["b"]).readings : List (Forest Nat Unit)) = [] := by
  have hlength : ((selfEmbedding.parse ["b"]).readings : List (Forest Nat Unit)).length = 0 := by
    decide +kernel
  exact ⟨by decide +kernel, List.eq_nil_of_length_eq_zero hlength⟩

/--
Every accepted item that goes back to no cycle has an analysis of its own among those that
the readings are made of, so there is a reading whose first node is its tree.
-/
theorem exists_reading_of_accepting [One W] [Mul W] (g : Grammar W) (input : List String) :
    ∀ x ∈ (g.parse input).accepting, (g.parse input).CycleFree x.id →
      ∃ analysis, (x, analysis) ∈ (g.parse input).unpackAll (g.parse input).accepting ∅ ∧
        ∃ f ∈ ((g.parse input).readings : List (Forest W H)),
          f = Chart.readingOf x.tree analysis ∧ f.trees.head? = some x.tree := by
  intro x hx hcycle
  obtain ⟨analysis, hanalysis⟩ := Chart.exists_analysis_of_cycleFree
    ((g.reached_parse input).derived (g.sound_select input)) hx (lt_size_of_mem_accepting hx) hcycle
  exact ⟨analysis, hanalysis, _, List.mem_map_of_mem hanalysis, rfl,
    Chart.head?_trees_readingOf x.tree analysis⟩

theorem exists_reading_noun_with_adjective :
    ∃ x ∈ (adjectives.parse ["big", "dog"]).accepting,
      (adjectives.parse ["big", "dog"]).CycleFree x.id ∧
        ∃ f ∈ ((adjectives.parse ["big", "dog"]).readings : List (Forest Nat Unit)),
          f.trees.head? = some x.tree := by
  have hcycle := Chart.cycleFree_of_lt (adjectives.parse ["big", "dog"]) (by decide +kernel)
  have haccepting : (adjectives.parse ["big", "dog"]).accepting ≠ [] := by
    simp [← List.length_pos_iff]
    decide +kernel
  obtain ⟨x, hx⟩ := List.exists_mem_of_ne_nil _ haccepting
  obtain ⟨analysis, -, f, hf, -, hroot⟩ :=
    exists_reading_of_accepting (H := Unit) adjectives ["big", "dog"] x hx (hcycle x.id)
  exact ⟨x, hx, hcycle x.id, f, hf, hroot⟩

end Grammar

end TreeInsertion
