import Mathlib.Data.List.TakeDrop
import TreeInsertion.Proofs.Assembly
import TreeInsertion.Proofs.Chart.Recognition

/-!
# No wrapping

Every accepted input is what some derived tree reads, if each auxiliary tree is read
wholly on its own side of its host.  It is the string of the derived tree itself unless
material was brought to the wrong side of a spine.
-/

namespace TreeInsertion

variable {W : Type}

def wordsBetween (input : List String) (i j : Nat) : List String :=
  (input.take j).drop i

theorem wordsBetween_self (input : List String) (i : Nat) : wordsBetween input i i = [] := by
  simp [wordsBetween]

theorem wordsBetween_append (input : List String) {i j k : Nat} (hij : i ≤ j) (hjk : j ≤ k) :
    wordsBetween input i j ++ wordsBetween input j k = wordsBetween input i k := by
  have hfront : wordsBetween input i j = ((input.take k).drop i).take (j - i) := by
    rw [wordsBetween, List.drop_take, List.drop_take, List.take_take,
      Nat.min_eq_left (Nat.sub_le_sub_right hjk i)]
  have hrest : wordsBetween input j k = (input.take k).drop (i + (j - i)) := by
    rw [wordsBetween, Nat.add_sub_cancel' hij]
  rw [hfront, hrest, List.drop_take_append_drop, wordsBetween]

theorem wordsBetween_succ {input : List String} {j : Nat} {word : String}
    (h : input[j]? = some word) : wordsBetween input j (j + 1) = [word] := by
  have hlt := (List.getElem?_eq_some_iff.1 h).1
  rw [wordsBetween, List.take_add_one, h, List.drop_append_of_le_length (by simp; omega)]
  simp

theorem wordsBetween_all (input : List String) : wordsBetween input 0 input.length = input := by
  simp [wordsBetween]

namespace Reading

open Assembly

variable {sel : Selection W} {input : List String} {mayStart : AnchoredTree W → Nat → Prop}

mutual

theorem BeforeDot.exists_children (hsel : sel.Sound) {t : AnchoredTree W} {l : Layer}
    {d i j : Nat} (ht : t ∈ sel.trees) (hl : l ∈ t.rule.layers) :
    BeforeDot sel input mayStart t l d i j →
      ∃ Ts, Children sel Anywhere t l d Ts (wordsBetween input i j)
  | .start => ⟨[], wordsBetween_self input i ▸ .start⟩
  | .word before hentry hread hword => by
      obtain ⟨Ts, hTs⟩ := before.exists_children hsel ht hl
      rw [← wordsBetween_append input before.le (Nat.le_succ _), wordsBetween_succ hword]
      exact ⟨_, .word hTs hentry⟩
  | .foot before hentry => by
      obtain ⟨Ts, hTs⟩ := before.exists_children hsel ht hl
      exact ⟨_, .foot hTs hentry⟩
  | .inner before hentry hlayer node => by
      obtain ⟨Ts, hTs⟩ := before.exists_children hsel ht hl
      obtain ⟨hm, haddress⟩ := Rule.mem_of_layer? hlayer
      have hroot := ((hsel.checked t ht).site_of_child hl hm haddress).1
      obtain ⟨T, hT⟩ := node.exists_node hsel ht hm (Or.inr hroot)
      rw [← wordsBetween_append input before.le node.le]
      exact ⟨_, .inner hTs hentry hlayer hT⟩
  | .site before hentry hu hinitial hother hroot node => by
      obtain ⟨Ts, hTs⟩ := before.exists_children hsel ht hl
      obtain ⟨T, hT⟩ := node.exists_node hsel hu (List.mem_of_mem_head? hroot) (Or.inl hinitial)
      rw [← wordsBetween_append input before.le node.le]
      exact ⟨_, .site hTs hentry hu hinitial hroot hT⟩

theorem Bare.exists_node (hsel : sel.Sound) {t : AnchoredTree W} {l : Layer} {i j : Nat}
    (ht : t ∈ sel.trees) (hl : l ∈ t.rule.layers) :
    Bare sel input mayStart t l i j → ∃ T, Node sel Anywhere t l T (wordsBetween input i j)
  | .mk _ all => by
      obtain ⟨Ts, hTs⟩ := all.exists_children hsel ht hl
      obtain ⟨e, hlhs⟩ := (hsel.checked t ht).exists_lhs hl
      exact ⟨_, .layer hlhs hTs⟩

/-- The auxiliary trees of a row are adjoined one above the other, the nearest one first. -/
theorem Row.exists_node (hsel : sel.Sound) {side : Side} {label : String} {i j : Nat}
    {t : AnchoredTree W} {l : Layer} {T : DerivedTree} {ws : List String} :
    Row sel input mayStart side label i j → t.IsSite l → l.hasLabel label = true →
      Node sel Anywhere t l T ws →
        ∃ T', Node sel Anywhere t l T' (side.join ws (wordsBetween input i j))
  | .nil, _, _, host => ⟨T, by rw [wordsBetween_self, Side.join_nil]; exact host⟩
  | .cons hu hside hroot tree rest, hsite, hlabel, host => by
      obtain ⟨A, hA⟩ := tree.exists_node hsel hu (List.mem_of_mem_head? hroot)
      have hrest {T' : DerivedTree} {ws' : List String} (h : Node sel Anywhere t l T' ws') :=
        rest.exists_node hsel hsite hlabel h
      rw [← wordsBetween_append input tree.le rest.le]
      cases side with
      | left =>
          obtain ⟨T', hT'⟩ := hrest host
          have hnode := hT'.adjoin hsite trivial hu hside hlabel hroot hA
          rw [Side.join, Side.join, ← List.append_assoc] at hnode
          exact ⟨_, hnode⟩
      | right =>
          have hnode := host.adjoin hsite trivial hu hside hlabel hroot hA
          obtain ⟨T', hT'⟩ := hrest hnode
          rw [Side.join, Side.join, List.append_assoc] at hT'
          exact ⟨T', hT'⟩

theorem Full.exists_node (hsel : sel.Sound) {t : AnchoredTree W} {l : Layer} {i j : Nat}
    (ht : t ∈ sel.trees) (hl : l ∈ t.rule.layers) (hsite : t.IsSite l) :
    Full sel input mayStart t l i j → ∃ T, Node sel Anywhere t l T (wordsBetween input i j)
  | .mk hlhs before node behind => by
      have hlabel := Layer.hasLabel_iff.2 ⟨_, hlhs, rfl⟩
      obtain ⟨T, hT⟩ := node.exists_node hsel ht hl
      obtain ⟨T', hT'⟩ := behind.exists_node hsel hsite hlabel hT
      obtain ⟨T'', hT''⟩ := before.exists_node hsel hsite hlabel hT'
      rw [Side.join, Side.join, wordsBetween_append input node.le behind.le,
        wordsBetween_append input before.le (Nat.le_trans node.le behind.le)] at hT''
      exact ⟨T'', hT''⟩

end

end Reading

namespace Grammar

/--
Whether no auxiliary tree of one side has the label of an inner node of a spine of the
other side.
-/
def SeparatesSides (g : Grammar W) : Prop :=
  ∀ r ∈ g.rules, ∀ l ∈ r.layers, r.OnSpine l → l.address ≠ Address.root →
    ∀ r' ∈ g.rules, ∀ label side, r'.rootSymbol = .ok label → l.hasLabel label = true →
      r'.side? = some side → r.side? = some side

theorem SeparatesSides.keepsSide {g : Grammar W} (h : g.SeparatesSides) {input : List String} :
    ∀ t ∈ (g.select input).trees, ∀ l ∈ t.rule.layers, ∀ u ∈ (g.select input).trees, ∀ side,
      u.side? = some side → t.IsSite l → l.hasLabel u.root = true →
        Assembly.KeepsSide t l side := by
  intro t ht l hl u hu side hside hsite hlabel hon
  have hroot : l.address ≠ Address.root := by
    rcases hsite with hinitial | hroot
    · exact absurd hon (Rule.not_onSpine_of_isInitial hinitial l)
    · exact hroot
  exact h t.rule (mem_select ht).1 l hl hon hroot u.rule (mem_select hu).1 u.root side
    (mem_select hu).2.2 hlabel hside

variable [One W] [Mul W]

/--
An accepted input is what a complete derived tree of an initial tree with a start symbol
reads, if each auxiliary tree is read on its own side of its host.  The tree has the
words in this order if nothing was brought to the wrong side of a spine.
-/
theorem exists_derived_of_accepts (g : Grammar W) (input : List String)
    (h : (g.parse input).accepts = true) :
    ∃ t ∈ (g.select input).trees, t.isInitial = true ∧ g.starts.contains t.root = true ∧
      ∃ l, t.rule.layers.head? = some l ∧ ∃ T,
        Assembly.Node (g.select input) Assembly.Anywhere t l T input ∧ T.IsComplete ∧
          (Assembly.Node (g.select input) Assembly.KeepsSide t l T input → T.words = input) ∧
            (g.SeparatesSides → T.words = input) := by
  have hsel := g.sound_select input
  obtain ⟨t, ht, hinitial, hstart, l, hroot, hfull⟩ := reads_of_accepts h
  have hl := List.mem_of_mem_head? hroot
  have hoff := Rule.not_onSpine_of_isInitial hinitial l
  obtain ⟨T, hT⟩ := hfull.exists_node hsel ht hl (Or.inl hinitial)
  rw [wordsBetween_all] at hT
  refine ⟨t, ht, hinitial, hstart, l, hroot, T, hT, hT.isComplete hsel ht hl hinitial, ?_, ?_⟩
  · exact fun hkeeps => hkeeps.words_eq hsel ht hl hoff
  · exact fun hseparates => (hT.mono hseparates.keepsSide ht hl).words_eq hsel ht hl hoff

theorem exists_derived_noun_with_adjective :
    (adjectives.parse ["big", "dog"]).accepts = true ∧
      ∃ t l T, Assembly.Node (adjectives.select ["big", "dog"]) Assembly.Anywhere t l T
        ["big", "dog"] ∧ T.words = ["big", "dog"] := by
  have haccepts : (adjectives.parse ["big", "dog"]).accepts = true := by decide +kernel
  have hseparates : adjectives.SeparatesSides := by
    intro r hr l hl hon hroot
    -- no layer but the roots
    have hroots : ∀ r ∈ adjectives.rules, ∀ l ∈ r.layers, l.address = Address.root := by decide
    exact absurd (hroots r hr l hl) hroot
  obtain ⟨t, -, -, -, l, -, T, hT, -, -, hwords⟩ :=
    exists_derived_of_accepts adjectives ["big", "dog"] haccepts
  exact ⟨haccepts, t, l, T, hT, hwords hseparates⟩

end Grammar

/-! ## Material on the wrong side of a spine -/

namespace Assembly

/-- Whether the first word of two stands at the left edge or the second one at the right edge. -/
def Edged (a z : String) (p q : Option String) : Prop :=
  p = some a ∨ q = some z

def EdgedEntries (a z : String) (e e' : Entry) : Prop :=
  e = ⟨.terminal, a⟩ ∨ e' = ⟨.terminal, z⟩

instance (a z : String) : DecidableRel (EdgedEntries a z) :=
  fun e e' => inferInstanceAs (Decidable (e = ⟨.terminal, a⟩ ∨ e' = ⟨.terminal, z⟩))

theorem edgedEntries_of_pairwise {a z : String} {l : Layer} (hl : l.rhs.Pairwise (EdgedEntries a z))
    {d j : Nat} {e e' : Entry} (hd : 1 ≤ d) (hj : d < j) (hentry : l.entry? d = some e)
    (hentry' : l.entry? j = some e') : EdgedEntries a z e e' := by
  have hrhs {k : Nat} {e : Entry} (hk : 1 ≤ k) (hentry : l.entry? k = some e) :
      l.rhs[k - 1]? = some e := by
    have hsame : 1 + (k - 1) = k := by omega
    rw [Layer.getElem?_rhs, hsame, hentry]
  obtain ⟨hlt, rfl⟩ := List.getElem?_eq_some_iff.1 (hrhs hd hentry)
  have hj' : 1 ≤ j := Nat.le_trans hd (Nat.le_of_lt hj)
  obtain ⟨hlt', rfl⟩ := List.getElem?_eq_some_iff.1 (hrhs hj' hentry')
  exact List.pairwise_iff_getElem.1 hl _ _ hlt hlt' (by omega)

theorem pairwise_plugInto {a z : String} {T A : DerivedTree} (hT : T.leaves.Pairwise (Edged a z))
    (hA : A.leaves.Pairwise (Edged a z)) : (T.plugInto A).leaves.Pairwise (Edged a z) := by
  rw [DerivedTree.leaves_plugInto, List.pairwise_flatMap]
  constructor
  · intro p hp
    cases p with
    | none => exact hT
    | some w => exact List.pairwise_singleton _ _
  · refine hA.imp ?_
    rintro p q (rfl | rfl) p' hp' q' hq'
    · exact Or.inl (List.mem_singleton.1 hp')
    · exact Or.inr (List.mem_singleton.1 hq')

theorem pairwise_words {a z : String} {T : DerivedTree} (h : T.leaves.Pairwise (Edged a z)) :
    T.words.Pairwise fun w v => w = a ∨ v = z := by
  rw [DerivedTree.words, List.reduceOption, List.pairwise_filterMap]
  refine h.imp ?_
  rintro p q hpq w rfl v rfl
  simpa [Edged] using hpq

/-- The leaves of one more entry, of which the rest of the layer stands behind. -/
structure EdgedUpTo (a z : String) (l : Layer) (d : Nat) (leaves : List (Option String)) :
    Prop where
  pairwise : leaves.Pairwise (Edged a z)
  behind : ∀ p ∈ leaves, p = some a ∨ ∀ j e, d ≤ j → l.entry? j = some e → e = ⟨.terminal, z⟩

theorem EdgedUpTo.append {a z : String} {l : Layer} {d : Nat} {leaves block : List (Option String)}
    (hl : l.rhs.Pairwise (EdgedEntries a z)) (h : EdgedUpTo a z l d leaves) (hd : 1 ≤ d)
    {e : Entry} (hentry : l.entry? d = some e) (hblock : block.Pairwise (Edged a z))
    (hword : ∀ w, e = ⟨.terminal, w⟩ → block = [some w]) :
    EdgedUpTo a z l (d + 1) (leaves ++ block) := by
  constructor
  · refine List.pairwise_append.2 ⟨h.pairwise, hblock, fun p hp q hq => ?_⟩
    rcases h.behind p hp with ha | hz
    · exact Or.inl ha
    · rw [hword z (hz d e (Nat.le_refl d) hentry), List.mem_singleton] at hq
      exact Or.inr hq
  · intro p hp
    rcases List.mem_append.1 hp with hold | hnew
    · exact (h.behind p hold).imp id fun hz j e' hj => hz j e' (Nat.le_of_succ_le hj)
    · by_cases ha : e = ⟨.terminal, a⟩
      · rw [hword a ha, List.mem_singleton] at hnew
        exact Or.inl hnew
      · refine Or.inr fun j e' hj hentry' => ?_
        exact (edgedEntries_of_pairwise hl hd hj hentry hentry').resolve_left ha

section

variable {sel : Selection W} {mayJoin : AnchoredTree W → Layer → Side → Prop} {a z : String}

mutual

theorem Children.edgedUpTo
    (hsel : ∀ t ∈ sel.trees, ∀ l ∈ t.rule.layers, l.rhs.Pairwise (EdgedEntries a z))
    {t : AnchoredTree W} {l : Layer} {d : Nat} {Ts : List DerivedTree} {ws : List String}
    (ht : t ∈ sel.trees) (hl : l ∈ t.rule.layers) :
    Children sel mayJoin t l d Ts ws → EdgedUpTo a z l d (DerivedTree.leavesAll Ts)
  | .start => ⟨List.Pairwise.nil, by simp [DerivedTree.leavesAll]⟩
  | .word before hentry => by
      have hbefore := before.edgedUpTo hsel ht hl
      rw [DerivedTree.leavesAll_concat]
      refine hbefore.append (hsel t ht l hl) before.one_le hentry (List.pairwise_singleton _ _) ?_
      intro w hw
      cases hw
      rfl
  | .foot before hentry => by
      have hbefore := before.edgedUpTo hsel ht hl
      rw [DerivedTree.leavesAll_concat]
      exact hbefore.append (hsel t ht l hl) before.one_le hentry (List.pairwise_singleton _ _)
        fun w hw => by cases hw
  | .inner before hentry hlayer node => by
      have hbefore := before.edgedUpTo hsel ht hl
      rw [DerivedTree.leavesAll_concat]
      exact hbefore.append (hsel t ht l hl) before.one_le hentry
        (node.pairwise_leaves hsel ht (Rule.mem_of_layer? hlayer).1) fun w hw => by cases hw
  | .site before hentry hu hinitial hroot node => by
      have hbefore := before.edgedUpTo hsel ht hl
      rw [DerivedTree.leavesAll_concat]
      exact hbefore.append (hsel t ht l hl) before.one_le hentry
        (node.pairwise_leaves hsel hu (List.mem_of_mem_head? hroot)) fun w hw => by cases hw

/-- If two words stand at the edges of all layers, they stand at the edges of derived trees. -/
theorem Node.pairwise_leaves
    (hsel : ∀ t ∈ sel.trees, ∀ l ∈ t.rule.layers, l.rhs.Pairwise (EdgedEntries a z))
    {t : AnchoredTree W} {l : Layer} {T : DerivedTree} {ws : List String} (ht : t ∈ sel.trees)
    (hl : l ∈ t.rule.layers) : Node sel mayJoin t l T ws → T.leaves.Pairwise (Edged a z)
  | .layer hlhs all => (all.edgedUpTo hsel ht hl).pairwise
  | .adjoin host _ _ hu _ _ hroot aux =>
      pairwise_plugInto (host.pairwise_leaves hsel ht hl)
        (aux.pairwise_leaves hsel hu (List.mem_of_mem_head? hroot))

end

end

end Assembly

namespace Grammar

/-- A left auxiliary tree with a node on its spine that takes a right one. -/
def crossed : Grammar Nat :=
  ⟨[⟨0, [⟨⟨[0]⟩, [⟨.nonterminal, "X"⟩, ⟨.terminal, "x"⟩]⟩], ["x"], 1, 1, none⟩,
    ⟨1, [⟨⟨[0]⟩, [⟨.nonterminal, "X"⟩, ⟨.nonterminal, "Y"⟩]⟩,
        ⟨⟨[0, 1]⟩, [⟨.nonterminal, "Y"⟩, ⟨.terminal, "b"⟩, ⟨.foot, "X"⟩]⟩], ["b"], 1, 1,
      some ⟨[0, 1]⟩⟩,
    ⟨2, [⟨⟨[0]⟩, [⟨.nonterminal, "Y"⟩, ⟨.foot, "Y"⟩, ⟨.terminal, "d"⟩]⟩], ["d"], 1, 1,
      some ⟨[0]⟩⟩],
    SymbolSet.ofList ["X"], by decide, by decide⟩

/-- The parser reads `d` before the host, but in every derived tree it stands behind. -/
theorem accepts_but_not_derived :
    (crossed.parse ["b", "d", "x"]).accepts = true ∧
      ¬ ∃ t ∈ (crossed.select ["b", "d", "x"]).trees, t.isInitial = true ∧
        crossed.starts.contains t.root = true ∧ ∃ l, t.rule.layers.head? = some l ∧ ∃ T ws,
          Assembly.Node (crossed.select ["b", "d", "x"]) Assembly.Anywhere t l T ws ∧
            T.IsComplete ∧ T.words = ["b", "d", "x"] := by
  refine ⟨by decide +kernel, ?_⟩
  rintro ⟨t, ht, -, -, l, hroot, T, ws, hT, -, hwords⟩
  have hedged : ∀ r ∈ crossed.rules, ∀ l ∈ r.layers,
      l.rhs.Pairwise (Assembly.EdgedEntries "b" "d") := by decide
  have hpairwise := Assembly.pairwise_words (hT.pairwise_leaves
    (fun t ht l hl => hedged t.rule (mem_select ht).1 l hl) ht (List.mem_of_mem_head? hroot))
  rw [hwords] at hpairwise
  revert hpairwise
  decide

end Grammar

end TreeInsertion
