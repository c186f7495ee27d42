import TreeInsertion.Grammar.Basic
import TreeInsertion.Proofs.Lexicon
import TreeInsertion.Proofs.Rule
import TreeInsertion.Selection

/-!
# The trees that a grammar selects

Each selected tree instantiates an anchored rule of the grammar under the root
symbol of the rule, and its number is its place.
-/

namespace TreeInsertion

namespace Selection

variable {W : Type}

/-- Whether the tables list the trees of each kind and root symbol, in order. -/
structure Filed (sel : Selection W) : Prop where
  initial : ∀ root, sel.initial root = sel.trees.filter fun t => t.isInitial && t.root == root
  auxiliary : ∀ root, sel.auxiliary root = sel.trees.filter fun t => t.isAuxiliary && t.root == root

/-- What the parser may rely on in the trees it is given. -/
structure Sound (sel : Selection W) : Prop where
  id_eq : ∀ {i : Nat} {t : AnchoredTree W}, sel.trees[i]? = some t → t.id = i
  checked : ∀ t ∈ sel.trees, t.rule.Checked
  rootSymbol : ∀ t ∈ sel.trees, t.rule.rootSymbol = .ok t.root
  filed : sel.Filed

namespace Sound

variable {sel : Selection W}

theorem eq_of_id_eq (h : sel.Sound) {t u : AnchoredTree W} (ht : t ∈ sel.trees)
    (hu : u ∈ sel.trees) (heq : t.id = u.id) : t = u := by
  obtain ⟨i, hi⟩ := List.getElem?_of_mem ht
  obtain ⟨j, hj⟩ := List.getElem?_of_mem hu
  have hij : i = j := by rw [← h.id_eq hi, ← h.id_eq hj, heq]
  rw [hij, hj] at hi
  exact (Option.some.inj hi).symm

/-- The root of a tree is its first layer, and carries the root symbol. -/
theorem exists_root (h : sel.Sound) {t : AnchoredTree W} (ht : t ∈ sel.trees) :
    ∃ l, t.rule.layers.head? = some l ∧ l.address = Address.root ∧
      l.hasLabel t.root = true := by
  obtain ⟨l, hl, haddress⟩ := (h.checked t ht).root
  obtain ⟨rest, hlayers⟩ := List.head?_eq_some_iff.1 hl
  have hsymbol := h.rootSymbol t ht
  simp only [Rule.rootSymbol, hlayers] at hsymbol
  cases hlhs : l.lhs? with
  | none => simp [hlhs] at hsymbol
  | some e =>
      refine ⟨l, hl, haddress, Layer.hasLabel_iff.2 ⟨e, hlhs, ?_⟩⟩
      simpa [hlhs] using hsymbol

theorem layers_pos (h : sel.Sound) {t : AnchoredTree W} (ht : t ∈ sel.trees) :
    0 < t.rule.layers.length := by
  obtain ⟨l, hl, -⟩ := h.exists_root ht
  exact List.length_pos_of_mem (List.mem_of_mem_head? hl)

theorem head?_eq_some_iff (h : sel.Sound) {t : AnchoredTree W} (ht : t ∈ sel.trees) {l : Layer} :
    t.rule.layers.head? = some l ↔ l ∈ t.rule.layers ∧ l.address = Address.root := by
  obtain ⟨root, hroot, haddress, -⟩ := h.exists_root ht
  constructor
  · intro hl
    rw [hroot] at hl
    cases hl
    exact ⟨List.mem_of_mem_head? hroot, haddress⟩
  · rintro ⟨hl, heq⟩
    rw [hroot, (h.checked t ht).eq_of_address_eq (List.mem_of_mem_head? hroot) hl
      (haddress.trans heq.symm)]

theorem hasLabel_of_head? (h : sel.Sound) {t : AnchoredTree W} (ht : t ∈ sel.trees) {l : Layer}
    (hl : t.rule.layers.head? = some l) : l.hasLabel t.root = true := by
  obtain ⟨root, hroot, -, hlabel⟩ := h.exists_root ht
  rw [hroot] at hl
  cases hl
  exact hlabel

theorem mem_initial (h : sel.Sound) {label : String} {t : AnchoredTree W} :
    t ∈ sel.initial label ↔ t ∈ sel.trees ∧ t.isInitial = true ∧ t.root = label := by
  simp [h.filed.initial]

theorem mem_auxiliary (h : sel.Sound) {label : String} {t : AnchoredTree W} :
    t ∈ sel.auxiliary label ↔ t ∈ sel.trees ∧ t.isAuxiliary = true ∧ t.root = label := by
  simp [h.filed.auxiliary]

end Sound

/-! ## Trees that are pushed one after the other -/

theorem trees_push (sel : Selection W) (t : AnchoredTree W) :
    (sel.push t).trees = sel.trees ++ [t] := by
  unfold push
  split <;> rfl

theorem size_push (sel : Selection W) (t : AnchoredTree W) : (sel.push t).size = sel.size + 1 := by
  simp [size, trees_push]

theorem initial_push (sel : Selection W) (t : AnchoredTree W) (root : String) :
    (sel.push t).initial root =
      sel.initial root ++ [t].filter fun u => u.isInitial && u.root == root := by
  have hkind : t.isInitial = !t.isAuxiliary := rfl
  unfold push
  cases haux : t.isAuxiliary with
  | true => simp [initial, hkind, haux]
  | false => simp [initial, List.filter_cons, hkind, haux, TreeTable.getD_file]

theorem auxiliary_push (sel : Selection W) (t : AnchoredTree W) (root : String) :
    (sel.push t).auxiliary root =
      sel.auxiliary root ++ [t].filter fun u => u.isAuxiliary && u.root == root := by
  unfold push
  cases haux : t.isAuxiliary with
  | true => simp [auxiliary, List.filter_cons, haux, TreeTable.getD_file]
  | false => simp [auxiliary, haux]

theorem filed_empty : (empty : Selection W).Filed := by
  constructor <;> intro root <;> rfl

theorem Filed.push {sel : Selection W} (h : sel.Filed) (t : AnchoredTree W) :
    (sel.push t).Filed where
  initial root := by
    rw [initial_push, h.initial, trees_push, List.filter_append]
  auxiliary root := by
    rw [auxiliary_push, h.auxiliary, trees_push, List.filter_append]

def give (sel : Selection W) (candidate : Rule W × Nat × String) : Selection W :=
  sel.push ⟨sel.size, candidate.1, candidate.2.1, candidate.2.2⟩

theorem filed_foldl_give {sel : Selection W} (h : sel.Filed)
    (candidates : List (Rule W × Nat × String)) : (candidates.foldl give sel).Filed := by
  induction candidates generalizing sel with
  | nil => exact h
  | cons candidate candidates ih => exact ih (h.push _)

/-- The numbers go on from the size. -/
theorem trees_foldl_give (sel : Selection W) (candidates : List (Rule W × Nat × String)) :
    (candidates.foldl give sel).trees =
      sel.trees ++ (candidates.zipIdx sel.size).map fun ((r, pos, root), id) =>
        ⟨id, r, pos, root⟩ := by
  induction candidates generalizing sel with
  | nil => simp
  | cons candidate candidates ih =>
      rw [List.foldl_cons, ih, give, trees_push, size_push, List.zipIdx_cons, List.map_cons,
        List.append_assoc]
      rfl

/-! ## The candidates -/

theorem rootSymbol_eq_ok_iff {r : Rule W} {root : String} :
    r.rootSymbol = .ok root ↔ r.rootSymbol.toOption = some root := by
  cases r.rootSymbol <;> simp [Except.toOption]

def rulesAt (lex : Lexicon W) (input : List String) (pos : Nat) : List (Rule W × String) :=
  (lex.matchesAt input pos).flatMap fun (_, rules) =>
    rules.filterMap fun r => r.rootSymbol.toOption.map fun root => (r, root)

/-- What the trees are made from, in order. -/
def candidates (lex : Lexicon W) (input : List String) : List (Rule W × Nat × String) :=
  (List.range input.length).flatMap fun pos =>
    (rulesAt lex input pos).map fun (r, root) => (r, pos, root)

theorem selectAt_eq_foldl_give (lex : Lexicon W) (input : List String) (sel : Selection W)
    (pos : Nat) : selectAt lex input sel pos =
      ((rulesAt lex input pos).map fun (r, root) => (r, pos, root)).foldl give sel := by
  have hselect (sel : Selection W) (rules : List (Rule W)) : rules.foldl (select · pos) sel =
      ((rules.filterMap fun r => r.rootSymbol.toOption.map fun root => (r, root)).map
        fun (r, root) => (r, pos, root)).foldl give sel := by
    induction rules generalizing sel with
    | nil => rfl
    | cons r rules ih =>
        rw [List.foldl_cons, ih, select, AnchoredTree.ofRule]
        cases hroot : r.rootSymbol <;> simp [hroot, Except.map, Except.toOption, give]
  rw [selectAt, rulesAt, List.map_flatMap, List.foldl_flatMap]
  simp only [hselect]

theorem ofInput_eq_foldl_give (lex : Lexicon W) (input : List String) :
    ofInput lex input = (candidates lex input).foldl give empty := by
  rw [candidates, List.foldl_flatMap, ofInput]
  congr 1
  funext sel pos
  exact selectAt_eq_foldl_give lex input sel pos

theorem filed_ofInput (lex : Lexicon W) (input : List String) : (ofInput lex input).Filed := by
  rw [ofInput_eq_foldl_give]
  exact filed_foldl_give filed_empty _

theorem trees_ofInput (lex : Lexicon W) (input : List String) :
    (ofInput lex input).trees = (candidates lex input).zipIdx.map fun ((r, pos, root), id) =>
      ⟨id, r, pos, root⟩ := by
  rw [ofInput_eq_foldl_give, trees_foldl_give]
  rfl

theorem mem_rulesAt {lex : Lexicon W} {input : List String} {pos : Nat} {r : Rule W}
    {root : String} (h : (r, root) ∈ rulesAt lex input pos) :
    r.rootSymbol = .ok root ∧ ∃ word rest, r ∈ lex.trie.find (word :: rest) := by
  simp only [rulesAt, List.mem_flatMap, List.mem_filterMap, Option.map_eq_some_iff] at h
  obtain ⟨⟨len, rules⟩, hmatch, r', hr', root', hroot', heq⟩ := h
  cases heq
  obtain ⟨word, rest, hrules⟩ := Trie.exists_find_of_mem_matchesFrom hmatch
  exact ⟨rootSymbol_eq_ok_iff.2 hroot', word, rest, hrules ▸ hr'⟩

theorem id_eq_of_getElem? {lex : Lexicon W} {input : List String} {i : Nat} {t : AnchoredTree W}
    (h : (ofInput lex input).trees[i]? = some t) : t.id = i := by
  simp only [trees_ofInput, List.getElem?_map, List.getElem?_zipIdx, Option.map_map,
    Option.map_eq_some_iff] at h
  obtain ⟨⟨r, pos, root⟩, -, rfl⟩ := h
  simp

theorem mem_ofInput {lex : Lexicon W} {input : List String} {t : AnchoredTree W}
    (h : t ∈ (ofInput lex input).trees) :
    t.anchorPos < input.length ∧ (t.rule, t.root) ∈ rulesAt lex input t.anchorPos := by
  simp only [trees_ofInput, List.mem_map] at h
  obtain ⟨⟨⟨r, pos, root⟩, id⟩, hmem, rfl⟩ := h
  have hcandidate := List.fst_mem_of_mem_zipIdx hmem
  simp only [candidates, List.mem_flatMap, List.mem_range, List.mem_map] at hcandidate
  obtain ⟨pos', hpos, ⟨r', root'⟩, hrule, heq⟩ := hcandidate
  cases heq
  exact ⟨hpos, hrule⟩

end Selection

namespace Grammar

variable {W : Type}

def select (g : Grammar W) (input : List String) : Selection W :=
  Selection.ofInput g.lexicon input

theorem mem_select {g : Grammar W} {input : List String} {t : AnchoredTree W}
    (h : t ∈ (g.select input).trees) :
    t.rule ∈ g.rules ∧ t.rule.anchors ≠ [] ∧ t.rule.rootSymbol = .ok t.root := by
  obtain ⟨hroot, word, rest, hfind⟩ := Selection.mem_rulesAt (Selection.mem_ofInput h).2
  rw [lexicon, Lexicon.find_ofRules, List.mem_filter, decide_eq_true_eq] at hfind
  exact ⟨hfind.1, by simp [hfind.2.1], hroot⟩

theorem sound_select (g : Grammar W) (input : List String) : (g.select input).Sound where
  id_eq := Selection.id_eq_of_getElem?
  checked t ht := (g.wellFormed t.rule (mem_select ht).1).checked
  rootSymbol _ ht := (mem_select ht).2.2
  filed := Selection.filed_ofInput g.lexicon input

end Grammar

end TreeInsertion
