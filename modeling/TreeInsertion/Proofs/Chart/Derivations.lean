import Mathlib.Algebra.Group.Nat.Defs
import TreeInsertion.Proofs.Chart.Log

/-!
# Recorded derivations are steps

At every moment of an analysis, whatever derivation an item records is a prediction
or a step from items of the chart that concludes the cell of the item.
-/

namespace TreeInsertion

namespace Chart

variable {W : Type}

/-- Whether the chart holds the item under its number. -/
def Holds (c : Chart W) (x : Item W) : Prop :=
  c.items[x.id]? = some x

/-- Numbers tell the items of a chart apart. -/
theorem eq_of_holds {c : Chart W} {x y : Item W} (hx : c.Holds x) (hy : c.Holds y)
    (hid : x.id = y.id) : x = y := by
  simp only [Holds, hid] at hx hy
  exact Option.some.inj (hx.symm.trans hy)

theorem Filed.holds_of_getElem? {c : Chart W} (h : c.Filed) {id : Nat} {x : Item W}
    (hx : c.items[id]? = some x) : c.Holds x ∧ x.id = id := by
  have hid := h.id_eq hx
  exact ⟨by rwa [Holds, hid], hid⟩

theorem Has.exists_holds {c : Chart W} {x : Item W} (h : c.Has x) :
    ∃ ds, c.Holds { x with derivations := ds } :=
  h

theorem Extends.exists_holds {c c' : Chart W} (h : c.Extends c') {x : Item W} (hx : c.Holds x) :
    ∃ ds, c'.Holds { x with derivations := ds } := by
  obtain ⟨ds, hds, -⟩ := h.items hx
  exact ⟨ds, hds⟩

section Explained

variable [One W] [Mul W] {sel : Selection W} {starts : SymbolSet} {input : List String}

/-- Whether the derivation is one that leads to the item. -/
def Explains (input : List String) (c : Chart W) (x : Item W) (why : Derivation) : Prop :=
  (why = .predicted ∧ x.dot = 1 ∧ x.left = x.right ∧ x.leftAdjoined = false) ∨
    ∃ y, Step input c.Holds y why ∧ y.key = x.key

omit [One W] in
theorem Explains.mono {c c' : Chart W} {x y : Item W} {why : Derivation}
    (h : Explains input c x why) (hext : c.Extends c') (hkey : x.key = y.key) :
    Explains input c' y why := by
  rcases h with ⟨hwhy, hdot, hspan, hplain⟩ | ⟨z, hstep, hz⟩
  · simp only [Item.key, Item.Key.mk.injEq] at hkey
    obtain ⟨-, -, hdot', hleft, hright, hplain'⟩ := hkey
    exact Or.inl ⟨hwhy, hdot' ▸ hdot, hleft ▸ hright ▸ hspan, hplain' ▸ hplain⟩
  · obtain ⟨z', hstep', hz', -⟩ := hstep.exists_of_renewed fun _ => hext.exists_holds
    exact Or.inr ⟨z', hstep', by rw [hz', hz, hkey]⟩

theorem Licensed.explains {c : Chart W} {x : Item W} {why : Derivation}
    (h : Licensed sel input c (.add x why)) : Explains input c x why := by
  rcases h with ⟨hwhy, hopens⟩ | hstep
  · exact Or.inl ⟨hwhy, hopens.dot, hopens.span, hopens.plain⟩
  · obtain ⟨y, hy, hkey, -⟩ := hstep.exists_of_renewed fun _ => Has.exists_holds
    exact Or.inr ⟨y, hy, hkey⟩

theorem Licensed.antecedents_lt {c : Chart W} {x : Item W} {why : Derivation}
    (h : Licensed sel input c (.add x why)) : ∀ id ∈ why.antecedents, id < c.items.size := by
  intro id hid
  rcases h with ⟨rfl, -⟩ | hstep
  · simp [Derivation.antecedents] at hid
  · obtain ⟨y, ⟨ds, hy⟩, rfl⟩ := hstep.exists_of_mem_antecedents hid
    exact (Array.getElem?_eq_some_iff.1 hy).1

/-- The derivations of an item are distinct steps, and the first one is from earlier items. -/
structure Derived (input : List String) (c : Chart W) (x : Item W) : Prop where
  ne_nil : x.derivations ≠ []
  nodup : x.derivations.Nodup
  first : ∀ why ∈ x.derivations.head?, ∀ id ∈ why.antecedents, id < x.id
  explained : ∀ why ∈ x.derivations, Explains input c x why

namespace Derived

variable {c c' : Chart W} {x : Item W} {why : Derivation}

omit [One W] in
theorem mono (h : Derived input c x) (hext : c.Extends c') : Derived input c' x :=
  ⟨h.ne_nil, h.nodup, h.first, fun why hwhy => (h.explained why hwhy).mono hext rfl⟩

omit [One W] in
theorem derive (h : Derived input c x) (hwhy : Explains input c x why) :
    Derived input c (x.derive why) := by
  unfold Item.derive
  split
  · exact h
  · rename_i hnew
    refine ⟨by simp, ?_, ?_, ?_⟩
    · rw [List.nodup_append]
      refine ⟨h.nodup, by simp, ?_⟩
      intro d hd d' hd'
      rw [List.mem_singleton.1 hd']
      exact fun heq => hnew (heq ▸ hd)
    · rw [List.head?_append_of_ne_nil _ h.ne_nil]
      exact h.first
    · intro d hd
      rcases List.mem_append.1 hd with hold | hlast
      · exact h.explained d hold
      · rw [List.mem_singleton.1 hlast]
        exact hwhy

end Derived

theorem Reached.derived (hsel : sel.Sound) {c : Chart W} (hc : Reached sel starts input c) :
    ∀ x ∈ c.items, Derived input c x := by
  induction hc with
  | empty => simp [Chart.empty]
  | @apply c a hc ha ih =>
      have hinv := hc.inv hsel
      have hext := extends_apply (hinv.fits_of_licensed hsel ha)
      cases a with
      | note d => exact fun x hx => (ih x hx).mono hext
      | add x why =>
          intro y hy
          rcases hinv.filed.mem_add hy with hold | ⟨z, hz, hkey, rfl⟩ | rfl
          · exact (ih y hold).mono hext
          · exact ((ih z hz).derive (ha.explains.mono (.refl c) hkey.symm)).mono hext
          · refine ⟨by simp, by simp, ?_, ?_⟩
            · intro why' hwhy'
              cases hwhy'
              exact ha.antecedents_lt
            · intro why' hwhy'
              rw [List.mem_singleton.1 hwhy']
              exact ha.explains.mono hext rfl

end Explained

end Chart

namespace Grammar

variable {W : Type} [One W] [Mul W]

/--
At every moment, every item has a derivation and none twice, the first one is from
items with smaller numbers, and each is a prediction or a step that leads to the item.
-/
theorem derived_of_mem_moment (g : Grammar W) (input : List String) (m : Nat) :
    ∀ x ∈ (g.moment input m).items, Chart.Derived input (g.moment input m) x :=
  (g.reached_moment input m).derived (g.sound_select input)

def adjectives : Grammar Nat :=
  ⟨[⟨0, [⟨⟨[0]⟩, [⟨.nonterminal, "N"⟩, ⟨.terminal, "dog"⟩]⟩], ["dog"], 1, 1, none⟩,
    ⟨1, [⟨⟨[0]⟩, [⟨.nonterminal, "N"⟩, ⟨.terminal, "big"⟩, ⟨.foot, "N"⟩]⟩], ["big"], 1, 1,
      some ⟨[0]⟩⟩],
    SymbolSet.ofList ["N"], by decide, by decide⟩

theorem derived_noun_with_adjective :
    ∃ x ∈ (adjectives.moment ["big", "dog"] 9).items, x.leftAdjoined = true ∧
      Chart.Derived ["big", "dog"] (adjectives.moment ["big", "dog"] 9) x := by
  have hlt : 6 < (adjectives.moment ["big", "dog"] 9).items.size := by decide +kernel
  have hadjoined : (adjectives.moment ["big", "dog"] 9).items[6].leftAdjoined = true := by
    decide +kernel +revert
  have hmem := Array.getElem_mem hlt
  exact ⟨_, hmem, hadjoined, derived_of_mem_moment adjectives _ 9 _ hmem⟩

end Grammar

end TreeInsertion
