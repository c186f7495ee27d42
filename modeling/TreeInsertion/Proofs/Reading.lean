import TreeInsertion.Proofs.AnchorPlaces
import TreeInsertion.Proofs.Selection

/-!
# What trees read of an input

The reading of an input without a chart: a layer reads a span if its entries read it
piece by piece, and a node takes left auxiliary trees before its layer and right ones
behind it.  The relations do not say how readings are found.
-/

namespace TreeInsertion

/-- Where the analysis opens a tree: not behind its first anchor. -/
def AnchoredTree.MayStart {W : Type} (t : AnchoredTree W) (pos : Nat) : Prop :=
  pos ≤ t.anchorPos

/-- Whether the node of the layer may take auxiliary trees: all but the root of one may. -/
def AnchoredTree.IsSite {W : Type} (t : AnchoredTree W) (l : Layer) : Prop :=
  t.isInitial = true ∨ l.address ≠ Address.root

/-- Whether some layer of the rule has a word of its own. -/
def Rule.HasTerminal {W : Type} (r : Rule W) : Prop :=
  ∃ l ∈ r.layers, ∃ e ∈ l.rhs, e.role = .terminal

instance {W : Type} (r : Rule W) : Decidable r.HasTerminal :=
  inferInstanceAs (Decidable (∃ l ∈ r.layers, ∃ e ∈ l.rhs, e.role = .terminal))

/-- Such a word has a place. -/
theorem Rule.HasTerminal.exists_hasWordAt {W : Type} {r : Rule W} (h : r.HasTerminal) :
    ∃ g word, r.HasWordAt g word := by
  obtain ⟨l, hl, ⟨role, word⟩, he, rfl⟩ := h
  obtain ⟨k, hk⟩ := List.getElem?_of_mem he
  rw [Layer.getElem?_rhs] at hk
  exact ⟨_, word, l, hl, 1 + k, Nat.le_add_right 1 k, hk, rfl⟩

namespace Reading

variable {W : Type}

mutual

/-- The entries before the dot of a layer read the span from `i` to `j`. -/
inductive BeforeDot (sel : Selection W) (input : List String)
    (mayStart : AnchoredTree W → Nat → Prop) :
    AnchoredTree W → Layer → Nat → Nat → Nat → Prop where
  | start {t : AnchoredTree W} {l : Layer} {i : Nat} :
      BeforeDot sel input mayStart t l 1 i i
  /-- A terminal reads one word, which stands at the anchors of the tree if it is one of them. -/
  | word {t : AnchoredTree W} {l : Layer} {d i j : Nat} {word : String}
      (before : BeforeDot sel input mayStart t l d i j)
      (hentry : l.entry? d = some ⟨.terminal, word⟩) (hread : t.mayRead word j = true)
      (hword : input[j]? = some word) :
      BeforeDot sel input mayStart t l (d + 1) i (j + 1)
  | foot {t : AnchoredTree W} {l : Layer} {d i j : Nat} {label : String}
      (before : BeforeDot sel input mayStart t l d i j)
      (hentry : l.entry? d = some ⟨.foot, label⟩) :
      BeforeDot sel input mayStart t l (d + 1) i j
  /-- A nonterminal reads what the node below it reads. -/
  | inner {t : AnchoredTree W} {l m : Layer} {d i j k : Nat} {label : String}
      (before : BeforeDot sel input mayStart t l d i j)
      (hentry : l.entry? d = some ⟨.nonterminal, label⟩)
      (hlayer : t.rule.layer? (l.address.child d) = some m)
      (node : Full sel input mayStart t m j k) :
      BeforeDot sel input mayStart t l (d + 1) i k
  /-- A substitution site reads what the root of another, initial, tree reads. -/
  | site {t u : AnchoredTree W} {l m : Layer} {d i j k : Nat}
      (before : BeforeDot sel input mayStart t l d i j)
      (hentry : l.entry? d = some ⟨.substitution, u.root⟩) (hu : u ∈ sel.trees)
      (hinitial : u.isInitial = true) (hother : t.id ≠ u.id)
      (hroot : u.rule.layers.head? = some m) (node : Full sel input mayStart u m j k) :
      BeforeDot sel input mayStart t l (d + 1) i k

/-- The whole layer reads the span.  A tree may start at some positions only. -/
inductive Bare (sel : Selection W) (input : List String)
    (mayStart : AnchoredTree W → Nat → Prop) : AnchoredTree W → Layer → Nat → Nat → Prop where
  | mk {t : AnchoredTree W} {l : Layer} {i j : Nat}
      (hstart : l.address = Address.root → mayStart t i)
      (all : BeforeDot sel input mayStart t l l.length i j) :
      Bare sel input mayStart t l i j

/-- Zero or more auxiliary trees for a node with the label, on one side of it. -/
inductive Row (sel : Selection W) (input : List String)
    (mayStart : AnchoredTree W → Nat → Prop) : Side → String → Nat → Nat → Prop where
  | nil {side : Side} {label : String} {i : Nat} : Row sel input mayStart side label i i
  | cons {side : Side} {u : AnchoredTree W} {m : Layer} {i j k : Nat} (hu : u ∈ sel.trees)
      (hside : u.side? = some side) (hroot : u.rule.layers.head? = some m)
      (tree : Bare sel input mayStart u m i j) (rest : Row sel input mayStart side u.root j k) :
      Row sel input mayStart side u.root i k

/-- The node reads the span, together with the auxiliary trees that it takes. -/
inductive Full (sel : Selection W) (input : List String)
    (mayStart : AnchoredTree W → Nat → Prop) : AnchoredTree W → Layer → Nat → Nat → Prop where
  | mk {t : AnchoredTree W} {l : Layer} {e : Entry} {i j k m : Nat} (hlhs : l.lhs? = some e)
      (before : Row sel input mayStart .left e.label i j) (node : Bare sel input mayStart t l j k)
      (behind : Row sel input mayStart .right e.label k m) :
      Full sel input mayStart t l i m

end

section

variable {sel : Selection W} {input : List String} {mayStart : AnchoredTree W → Nat → Prop}

/-! ## Spans -/

mutual

theorem BeforeDot.le {t : AnchoredTree W} {l : Layer} {d i j : Nat} :
    BeforeDot sel input mayStart t l d i j → i ≤ j
  | .start => Nat.le_refl _
  | .word before _ _ _ => Nat.le_succ_of_le before.le
  | .foot before _ => before.le
  | .inner before _ _ node => Nat.le_trans before.le node.le
  | .site before _ _ _ _ _ node => Nat.le_trans before.le node.le

theorem Bare.le {t : AnchoredTree W} {l : Layer} {i j : Nat} :
    Bare sel input mayStart t l i j → i ≤ j
  | .mk _ all => all.le

theorem Row.le {side : Side} {label : String} {i j : Nat} :
    Row sel input mayStart side label i j → i ≤ j
  | .nil => Nat.le_refl _
  | .cons _ _ _ tree rest => Nat.le_trans tree.le rest.le

theorem Full.le {t : AnchoredTree W} {l : Layer} {i j : Nat} :
    Full sel input mayStart t l i j → i ≤ j
  | .mk _ before node behind => Nat.le_trans before.le (Nat.le_trans node.le behind.le)

end

theorem Row.append {side : Side} {label : String} {i j k : Nat} :
    Row sel input mayStart side label i j → Row sel input mayStart side label j k →
      Row sel input mayStart side label i k
  | .nil, h => h
  | .cons hu hside hroot tree rest, h => .cons hu hside hroot tree (rest.append h)

/-- A node that takes one more left auxiliary tree, behind which it stands. -/
theorem Full.behind {t u : AnchoredTree W} {l m : Layer} {i j k : Nat} (hu : u ∈ sel.trees)
    (hside : u.side? = some .left) (hroot : u.rule.layers.head? = some m)
    (hlabel : l.hasLabel u.root = true) (tree : Bare sel input mayStart u m i j)
    (h : Full sel input mayStart t l j k) : Full sel input mayStart t l i k := by
  obtain ⟨e, hlhs, hlabel⟩ := Layer.hasLabel_iff.1 hlabel
  obtain ⟨hlhs', before, node, behind⟩ := h
  rw [hlhs] at hlhs'
  cases hlhs'
  rw [hlabel] at before
  have hrow : Row sel input mayStart .left u.root i _ := .cons hu hside hroot tree before
  exact .mk hlhs (hlabel ▸ hrow) node behind

/-! ## Trees with a word read something -/

/-- A reading up to a dot begins with readings up to all earlier dots. -/
theorem BeforeDot.exists_prefix {t : AnchoredTree W} {l : Layer} {d i j k : Nat} (hk : 1 ≤ k) :
    BeforeDot sel input mayStart t l d i j → k ≤ d →
      ∃ j', j' ≤ j ∧ BeforeDot sel input mayStart t l k i j'
  | .start, hkd => by
      cases Nat.le_antisymm hk hkd
      exact ⟨i, Nat.le_refl i, .start⟩
  | .word before hentry hread hword, hkd => by
      rcases Nat.lt_or_eq_of_le hkd with hlt | rfl
      · obtain ⟨j', hle, h⟩ := before.exists_prefix hk (Nat.le_of_lt_succ hlt)
        exact ⟨j', Nat.le_succ_of_le hle, h⟩
      · exact ⟨_, Nat.le_refl _, .word before hentry hread hword⟩
  | .foot before hentry, hkd => by
      rcases Nat.lt_or_eq_of_le hkd with hlt | rfl
      · exact before.exists_prefix hk (Nat.le_of_lt_succ hlt)
      · exact ⟨_, Nat.le_refl _, .foot before hentry⟩
  | .inner before hentry hlayer node, hkd => by
      rcases Nat.lt_or_eq_of_le hkd with hlt | rfl
      · obtain ⟨j', hle, h⟩ := before.exists_prefix hk (Nat.le_of_lt_succ hlt)
        exact ⟨j', Nat.le_trans hle node.le, h⟩
      · exact ⟨_, Nat.le_refl _, .inner before hentry hlayer node⟩
  | .site before hentry hu hinitial hother hroot node, hkd => by
      rcases Nat.lt_or_eq_of_le hkd with hlt | rfl
      · obtain ⟨j', hle, h⟩ := before.exists_prefix hk (Nat.le_of_lt_succ hlt)
        exact ⟨j', Nat.le_trans hle node.le, h⟩
      · exact ⟨_, Nat.le_refl _, .site before hentry hu hinitial hother hroot node⟩

theorem BeforeDot.lt_of_terminal {t : AnchoredTree W} {l : Layer} {k i j : Nat} {word : String}
    (hk : 1 ≤ k) (hentry : l.entry? k = some ⟨.terminal, word⟩)
    (h : BeforeDot sel input mayStart t l (k + 1) i j) : i < j := by
  cases h with
  | start => exact absurd hk (Nat.not_succ_le_zero 0)
  | word before _ _ _ => exact Nat.lt_succ_of_le before.le
  | foot _ hentry' => rw [hentry] at hentry'; cases hentry'
  | inner _ hentry' _ _ => rw [hentry] at hentry'; cases hentry'
  | site _ hentry' _ _ _ _ _ => rw [hentry] at hentry'; cases hentry'

/-- A nonterminal before the dot has been read by the layer below it. -/
theorem BeforeDot.exists_node {t : AnchoredTree W} {l : Layer} {k i j : Nat} {label : String}
    (hk : 1 ≤ k) (hentry : l.entry? k = some ⟨.nonterminal, label⟩)
    (h : BeforeDot sel input mayStart t l (k + 1) i j) :
    ∃ m j', t.rule.layer? (l.address.child k) = some m ∧ i ≤ j' ∧
      Full sel input mayStart t m j' j := by
  cases h with
  | start => exact absurd hk (Nat.not_succ_le_zero 0)
  | word _ hentry' _ _ => rw [hentry] at hentry'; cases hentry'
  | foot _ hentry' => rw [hentry] at hentry'; cases hentry'
  | inner before _ hlayer node => exact ⟨_, _, hlayer, before.le, node⟩
  | site _ hentry' _ _ _ _ _ => rw [hentry] at hentry'; cases hentry'

/-- What has passed the place of a word has read something. -/
theorem BeforeDot.lt_of_word {t : AnchoredTree W} (ht : t.rule.Checked) {l : Layer}
    (hl : l ∈ t.rule.layers) {g : Address} {word : String} (hg : t.rule.HasWordAt g word)
    {k : Nat} {rest : List Nat} (hpath : g.path = l.address.path ++ k :: rest) {d i j : Nat}
    (h : BeforeDot sel input mayStart t l d i j) (hd : k < d) : i < j := by
  induction rest generalizing l k d i j with
  | nil =>
      obtain ⟨hk, ⟨-, hentry⟩ | ⟨hrest, -⟩⟩ := ht.exists_entry_of_word hg hl hpath
      · obtain ⟨j', hle, h'⟩ := h.exists_prefix (Nat.le_add_left 1 k) hd
        exact Nat.lt_of_lt_of_le (h'.lt_of_terminal hk hentry) hle
      · exact absurd rfl hrest
  | cons k' rest ih =>
      obtain ⟨hk, ⟨hrest, -⟩ | ⟨-, label, hentry⟩⟩ := ht.exists_entry_of_word hg hl hpath
      · cases hrest
      · obtain ⟨j', hle, h'⟩ := h.exists_prefix (Nat.le_add_left 1 k) hd
        obtain ⟨m, i', hlayer, hle', -, before, ⟨-, all⟩, behind⟩ := h'.exists_node hk hentry
        obtain ⟨hm, haddress⟩ := Rule.mem_of_layer? hlayer
        have hbelow : g.path = m.address.path ++ k' :: rest := by
          simp [hpath, haddress, Address.child]
        have hall := ih hm hbelow all (ht.lt_length_of_word hg hm hbelow)
        have hbefore := before.le
        have hbehind := behind.le
        omega

/-- A recognised tree with a word has read something. -/
theorem Bare.lt_of_hasTerminal {t : AnchoredTree W} (ht : t.rule.Checked)
    (hterminal : t.rule.HasTerminal) {root : Layer} (hroot : t.rule.layers.head? = some root)
    {i j : Nat} (h : Bare sel input mayStart t root i j) : i < j := by
  obtain ⟨g, word, hword⟩ := hterminal.exists_hasWordAt
  obtain ⟨i, rest, hpath⟩ := ht.exists_below_root hword
  obtain ⟨m, hm, haddress⟩ := ht.root
  rw [hroot] at hm
  cases hm
  rw [← haddress] at hpath
  have hmem := List.mem_of_mem_head? hroot
  obtain ⟨-, all⟩ := h
  exact all.lt_of_word ht hmem hword hpath (ht.lt_length_of_word hword hmem hpath)

end

end Reading

end TreeInsertion
