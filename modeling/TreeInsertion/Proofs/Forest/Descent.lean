import Mathlib.Algebra.Order.BigOperators.Group.List
import Mathlib.Data.Prod.Lex
import TreeInsertion.Proofs.Chart.Closure
import TreeInsertion.Proofs.Forest.Enumeration
import TreeInsertion.Proofs.Forest.Stems

/-!
# Descent

If every tree has a word of its own, going back from an item to an antecedent comes closer
to an end, so no item goes back to itself.  Numbers of items do not show that, since a
derivation that is found late leads to later items.  The span shrinks unless the other
antecedent covers nothing.  If it does not shrink, the antecedent has passed a word where the
item has not, or lies deeper in the tree, or has its dot further to the left.
-/

namespace TreeInsertion

open Relation

variable {W : Type}

namespace Item

/-- Whether some word of the tree stands before the dot, be it in a deeper layer. -/
def HasWord (x : Item W) : Prop :=
  ∃ g word, x.tree.rule.HasWordAt g word ∧ x.Passed g

section Words

variable {sel : Selection W} {input : List String} {n : Nat} {p d x y : Item W}

theorem Agrees.hasWord_iff (h : y.Agrees x) : x.HasWord ↔ y.HasWord := by
  unfold HasWord
  rw [h.tree]
  simp only [h.passed_iff]

/-- An item that has passed a word has read something. -/
theorem Means.lt_of_hasWord (h : x.Means sel input) (hsel : sel.Sound) (hlex : sel.Lexicalised)
    (hv : x.Valid sel n) (hword : x.HasWord) : x.left < x.right := by
  cases hadjoined : x.leftAdjoined with
  | true => exact h.lt_of_leftAdjoined hsel hlex hadjoined
  | false =>
      obtain ⟨g, word, hg, k, rest, hpath, hk⟩ := hword
      obtain ⟨j, hbefore, -, e, -, hrow⟩ := h.plain hadjoined
      have hlt := hbefore.lt_of_word (hsel.checked x.tree hv.tree) x.current_mem hg hpath hk
      exact Nat.lt_of_lt_of_le hlt hrow.le

/-- A recognised tree has passed a word. -/
theorem Valid.hasWord (hv : x.Valid sel n) (hsel : sel.Sound) (hlex : sel.Lexicalised)
    (hpassive : x.isPassive = true) (hroot : x.isRootLayer = true) : x.HasWord := by
  obtain ⟨g, word, hg⟩ := Rule.HasTerminal.exists_hasWordAt (hlex x.tree hv.tree)
  exact ⟨g, word, hg, passed_of_finished hsel hv.tree hpassive hroot hg⟩

/-- Where the dot has moved over a leaf without a word, the words before it are the old ones. -/
theorem Advances.hasWord_of_leaf {right : Nat} {e : Entry} (h : p.Advances x right)
    (hsel : sel.Sound) (hv : p.Valid sel n) (hnext : p.next? = some e)
    (hterminal : e.role ≠ .terminal) (hnonterminal : e.role ≠ .nonterminal) (hword : x.HasWord) :
    p.HasWord := by
  obtain ⟨g, word, hg, hpassed⟩ := hword
  rw [h.tree] at hg
  rcases h.passed_iff.1 hpassed with hpassed | ⟨rest, hpath⟩
  · exact ⟨g, word, hg, hpassed⟩
  · rcases role_of_word hsel hv.tree hnext hg hpath with ⟨-, rfl⟩ | ⟨-, hrole⟩
    · exact absurd rfl hterminal
    · exact absurd hrole hnonterminal

/-- Where the dot has moved over an inner node, the words before it are old or those of the node. -/
theorem Advances.hasWord_of_child {right : Nat} (h : p.Advances x right) (hsel : sel.Sound)
    (hp : p.Valid sel n) (hd : d.Valid sel n) (hpassive : d.isPassive = true)
    (htree : d.tree = p.tree) (haddress : d.current.address = p.nextAddress)
    (hword : x.HasWord) : p.HasWord ∨ d.HasWord := by
  obtain ⟨g, word, hg, hpassed⟩ := hword
  rw [h.tree] at hg
  rcases h.passed_iff.1 hpassed with hpassed | ⟨rest, hpath⟩
  · exact Or.inl ⟨g, word, hg, hpassed⟩
  · exact Or.inr ⟨g, word, htree ▸ hg, passed_child hsel hp hd hpassive htree haddress hg hpath⟩

end Words

/-! ## Rank -/

/-- How much deeper than the item a layer of its tree can lie, generously. -/
def depthLeft (x : Item W) : Nat :=
  (x.tree.rule.layers.map fun l => l.address.path.length).sum - x.current.address.path.length

theorem depthLeft_lt_of_child {p d : Item W} (htree : d.tree = p.tree)
    (haddress : d.current.address = p.nextAddress) : d.depthLeft < p.depthLeft := by
  have hle : d.current.address.path.length ≤
      (p.tree.rule.layers.map fun l => l.address.path.length).sum :=
    List.le_sum_of_mem (List.mem_map_of_mem (htree ▸ d.current_mem))
  have hlength : d.current.address.path.length = p.current.address.path.length + 1 := by
    rw [haddress, nextAddress_path, List.length_append, List.length_singleton]
  rw [depthLeft, depthLeft, htree]
  omega

/-- What gets smaller: the span, the lack of words, the depth below the item, the dot. -/
def rank (x : Item W) : Nat ×ₗ Prop ×ₗ Nat ×ₗ Nat :=
  toLex (x.right - x.left, toLex (¬ x.HasWord, toLex (x.depthLeft, x.dot)))

section Rank

variable {x y : Item W}

theorem Agrees.rank_eq (h : y.Agrees x) : x.rank = y.rank := by
  rw [rank, rank, depthLeft, depthLeft, h.left, h.right, h.tree, h.current, h.dot,
    propext h.hasWord_iff]

theorem rank_lt_of_span (h : y.right - y.left < x.right - x.left) : y.rank < x.rank :=
  Prod.Lex.toLex_lt_toLex.2 (Or.inl h)

theorem rank_lt_of_word (hspan : y.right - y.left ≤ x.right - x.left) (hy : y.HasWord)
    (hx : y.right - y.left = x.right - x.left → ¬ x.HasWord) : y.rank < x.rank := by
  refine Prod.Lex.toLex_lt_toLex'.2 ⟨hspan, fun heq => Prod.Lex.toLex_lt_toLex.2 (Or.inl ?_)⟩
  exact lt_iff_le_not_ge.2 ⟨fun hlight => absurd hy hlight, fun h => h (hx heq) hy⟩

theorem rank_lt_of_below (hspan : y.right - y.left ≤ x.right - x.left)
    (hword : y.right - y.left = x.right - x.left → x.HasWord → y.HasWord)
    (hbelow : y.depthLeft < x.depthLeft ∨ y.depthLeft = x.depthLeft ∧ y.dot < x.dot) :
    y.rank < x.rank := by
  refine Prod.Lex.toLex_lt_toLex'.2 ⟨hspan, fun heq => Prod.Lex.toLex_lt_toLex'.2 ⟨?_, fun _ => ?_⟩⟩
  · exact fun hlight hx => hlight (hword heq hx)
  · exact Prod.Lex.toLex_lt_toLex.2 hbelow

end Rank

section Steps

variable {sel : Selection W} {input : List String} {n : Nat} {p d h a x : Item W}

/-- The dot moves over something, and over no word if nothing is read. -/
theorem Advances.rank_lt {right : Nat} (h : p.Advances x right) (hp : p.left ≤ p.right)
    (hright : p.right ≤ right) (hword : p.right = right → x.HasWord → p.HasWord) :
    p.rank < x.rank := by
  have hleft := h.left
  have hend := h.right
  have hdepth : p.depthLeft = x.depthLeft := by rw [depthLeft, depthLeft, h.tree, h.current]
  refine rank_lt_of_below (by omega) (fun heq => hword (by omega)) (Or.inr ⟨hdepth, ?_⟩)
  rw [h.dot]
  exact Nat.lt_succ_self _

/-- An inner node covers no more than the layer above it, and lies deeper. -/
theorem Advances.rank_lt_of_child (h : p.Advances x d.right) (hp : p.left ≤ p.right)
    (hd : d.left ≤ d.right) (htree : d.tree = p.tree) (haddress : d.current.address = p.nextAddress)
    (hspan : d.left = p.right) (hword : p.left = p.right → x.HasWord → d.HasWord) :
    d.rank < x.rank := by
  have hleft := h.left
  have hend := h.right
  have hdepth := depthLeft_lt_of_child htree haddress
  have hsame : p.depthLeft = x.depthLeft := by rw [depthLeft, depthLeft, h.tree, h.current]
  exact rank_lt_of_below (by omega) (fun heq => hword (by omega)) (Or.inl (hsame ▸ hdepth))

/-- Of two spans that make up a third one, the one with a word in its item ranks lower. -/
theorem rank_lt_of_parts (hlength : x.right - x.left = (h.right - h.left) + (a.right - a.left))
    (hword : a.HasWord) (hx : h.left = h.right → ¬ x.HasWord) (hle : h.left ≤ h.right) :
    a.rank < x.rank :=
  rank_lt_of_word (by omega) hword fun heq => hx (by omega)

end Steps

end Item

namespace Chart

variable [Mul W] {sel : Selection W} {starts : SymbolSet} {input : List String}

theorem hasWord_joined (h a : Item W) (side : Side) : (joined h a side).HasWord ↔ h.HasWord := by
  cases side <;> exact Iff.rfl

/-- Joining a recognised auxiliary tree adds its span to that of the host. -/
theorem rank_lt_of_join (hsel : sel.Sound) (hlex : sel.Lexicalised) {n : Nat} {h a : Item W}
    {side : Side} (hhost : h.Valid sel n) (haux : a.Valid sel n)
    (hfinished : isFinishedAuxiliary a.tree.root side a = true)
    (hreadsHost : h.HasWord → h.left < h.right) (hreadsAux : a.HasWord → a.left < a.right)
    (hlength : (joined h a side).right - (joined h a side).left =
      (h.right - h.left) + (a.right - a.left)) :
    h.rank < (joined h a side).rank ∧ a.rank < (joined h a side).rank := by
  obtain ⟨hpassive, hroot, -, -⟩ := isFinishedAuxiliary_iff.1 hfinished
  have hword := haux.hasWord hsel hlex hpassive hroot
  have hlt := hreadsAux hword
  refine ⟨Item.rank_lt_of_span (by omega), ?_⟩
  refine Item.rank_lt_of_parts hlength hword (fun hempty hx => ?_) hhost.left_le
  have hread := hreadsHost ((hasWord_joined h a side).1 hx)
  omega

/-- The antecedents of a step rank lower than what it concludes. -/
theorem Step.exists_rank_lt (hsel : sel.Sound) (hlex : sel.Lexicalised) {A : Item W → Prop}
    (hvalid : ∀ z, A z → z.Valid sel input.length) (hmeans : ∀ z, A z → z.Means sel input)
    {x : Item W} {why : Derivation} (h : Step input A x why) :
    ∀ id ∈ why.antecedents, ∃ z, A z ∧ z.id = id ∧ z.rank < x.rank := by
  have hreads {z : Item W} (hz : A z) (hword : z.HasWord) : z.left < z.right :=
    (hmeans z hz).lt_of_hasWord hsel hlex (hvalid z hz) hword
  cases h with
  | @scan p word hp hnext _ _ =>
      have hadvances :=
        Item.advances_advanceTo (Item.isActive_of_next? hnext) (p.right + 1) p.weight
      have hlt := hadvances.rank_lt (hvalid p hp).left_le (Nat.le_succ _) (by omega)
      simpa [Derivation.antecedents] using ⟨p, hp, rfl, hlt⟩
  | @foot p label hp hnext =>
      have hadvances := Item.advances_advanceTo (Item.isActive_of_next? hnext) p.right p.weight
      have hlt := hadvances.rank_lt (hvalid p hp).left_le (Nat.le_refl _) fun _ =>
        hadvances.hasWord_of_leaf hsel (hvalid p hp) hnext (by simp) (by simp)
      simpa [Derivation.antecedents] using ⟨p, hp, rfl, hlt⟩
  | @complete p d hp hd hactive hpassive htree haddress hspan =>
      have hadvances := Item.advances_advanceTo hactive d.right (p.weight * d.weight)
      have hpspan := (hvalid p hp).left_le
      have hdspan := (hvalid d hd).left_le
      have hsame := hsel.eq_of_id_eq (hvalid d hd).tree (hvalid p hp).tree htree
      have hwords := hadvances.hasWord_of_child hsel (hvalid p hp) (hvalid d hd) hpassive hsame
        haddress
      -- A part that covers nothing has no word, so what is read is in the other part.
      have hparent := hadvances.rank_lt hpspan (hspan ▸ hdspan) fun hempty hword =>
        (hwords hword).resolve_right fun hd' => by
          have hlt := hreads hd hd'
          omega
      have hchild := hadvances.rank_lt_of_child hpspan hdspan hsame haddress hspan
        fun hempty hword => (hwords hword).resolve_left fun hp' => by
          have hlt := hreads hp hp'
          omega
      simpa [Derivation.antecedents] using ⟨⟨p, hp, rfl, hparent⟩, ⟨d, hd, rfl, hchild⟩⟩
  | @substitution p d hp hd hnext hpassive hroot hinitial hother hspan =>
      have hadvances := Item.advances_advanceTo (Item.isActive_of_next? hnext) d.right
        (p.weight * d.weight)
      have hpspan := (hvalid p hp).left_le
      have hword := (hvalid d hd).hasWord hsel hlex hpassive hroot
      have hdspan := hreads hd hword
      have hparent := hadvances.rank_lt hpspan (by omega) (by omega)
      have hchild : d.rank < _ := Item.rank_lt_of_parts (h := p)
        (by rw [hadvances.left, hadvances.right]; omega) hword (fun hempty hx => by
          have hlt := hreads hp
            (hadvances.hasWord_of_leaf hsel (hvalid p hp) hnext (by simp) (by simp) hx)
          omega) hpspan
      simpa [Derivation.antecedents] using ⟨⟨p, hp, rfl, hparent⟩, ⟨d, hd, rfl, hchild⟩⟩
  | @right h a hh ha hhost hplain haux hspan =>
      have hlength : a.right - h.left = (h.right - h.left) + (a.right - a.left) := by
        have hhspan := (hvalid h hh).left_le
        have haspan := (hvalid a ha).left_le
        omega
      obtain ⟨hhlt, halt⟩ := rank_lt_of_join hsel hlex (hvalid h hh) (hvalid a ha) haux (hreads hh)
        (hreads ha) hlength
      simpa [Derivation.antecedents] using ⟨⟨h, hh, rfl, hhlt⟩, ⟨a, ha, rfl, halt⟩⟩
  | @left h a hh ha hhost haux hspan =>
      have hlength : h.right - a.left = (h.right - h.left) + (a.right - a.left) := by
        have hhspan := (hvalid h hh).left_le
        have haspan := (hvalid a ha).left_le
        omega
      obtain ⟨hhlt, halt⟩ := rank_lt_of_join hsel hlex (hvalid h hh) (hvalid a ha) haux (hreads hh)
        (hreads ha) hlength
      simpa [Derivation.antecedents] using ⟨⟨h, hh, rfl, hhlt⟩, ⟨a, ha, rfl, halt⟩⟩

/-- Going back from an item leads to items that rank lower. -/
theorem exists_rank_lt (hsel : sel.Sound) (hlex : sel.Lexicalised) {c : Chart W}
    (hinv : c.Inv sel starts input.length) (hmeans : ∀ x ∈ c.items, x.Means sel input)
    (hderived : ∀ x ∈ c.items, Derived input c x) {x : Item W} (hx : c.Holds x) {id : Nat}
    (h : TransGen c.IsAntecedent x.id id) : ∃ z, c.Holds z ∧ z.id = id ∧ z.rank < x.rank := by
  have hstep {y : Item W} (hy : c.Holds y) {a : Nat} (ha : c.IsAntecedent y.id a) :
      ∃ z, c.Holds z ∧ z.id = a ∧ z.rank < y.rank := by
    obtain ⟨why, hwhy, ha⟩ := List.mem_flatMap.1 ha
    obtain ⟨y', hy', hwhy⟩ := mem_derivationsOf hwhy
    cases hy.symm.trans hy'
    rcases (hderived y (Array.mem_of_getElem? hy)).explained why hwhy with
      ⟨rfl, -⟩ | ⟨y', hstep, hkey⟩
    · cases ha
    · rw [(agrees_of_step hsel hinv hy hstep hkey).rank_eq]
      exact hstep.exists_rank_lt hsel hlex (fun z => hinv.valid_of_holds)
        (fun z hz => hmeans z (Array.mem_of_getElem? hz)) a ha
  induction h with
  | single ha => exact hstep hx ha
  | tail _ ha ih =>
      obtain ⟨z, hz, rfl, hlt⟩ := ih
      obtain ⟨y, hy, rfl, hlt'⟩ := hstep hz ha
      exact ⟨y, hy, rfl, hlt'.trans hlt⟩

theorem acyclic_of_lexicalised (hsel : sel.Sound) (hlex : sel.Lexicalised) {c : Chart W}
    (hinv : c.Inv sel starts input.length) (hmeans : ∀ x ∈ c.items, x.Means sel input)
    (hderived : ∀ x ∈ c.items, Derived input c x) : c.Acyclic := by
  intro id hcycle
  obtain ⟨a, ha, -⟩ := TransGen.head'_iff.1 hcycle
  obtain ⟨why, hwhy, -⟩ := List.mem_flatMap.1 ha
  obtain ⟨x, hx, -⟩ := mem_derivationsOf hwhy
  cases hinv.filed.id_eq hx
  obtain ⟨z, hz, hid, hlt⟩ := exists_rank_lt hsel hlex hinv hmeans hderived hx hcycle
  have hsame : z = x := Option.some.inj (hz.symm.trans (hid ▸ hx))
  exact lt_irrefl _ (hsame ▸ hlt)

end Chart

namespace Grammar

/--
If every rule with anchors has a word, no item of a finished chart goes back to itself along
its derivations, so every item has finitely many analyses.
-/
theorem acyclic_parse [One W] [Mul W] (g : Grammar W) (hlex : g.Lexicalised)
    (input : List String) : (g.parse input).Acyclic := by
  have hsel := g.sound_select input
  have hreached := g.reached_parse input
  exact Chart.acyclic_of_lexicalised hsel (hlex.select input) (hreached.inv hsel)
    (hreached.means hsel) (hreached.derived hsel)

theorem acyclic_noun_with_adjective :
    (adjectives.parse ["big", "dog"]).accepts = true ∧
      (List.range (adjectives.parse ["big", "dog"]).items.size).map
          (adjectives.parse ["big", "dog"]).antecedentsOf =
        [[], [], [1], [2], [], [4], [5, 3]] ∧
      (adjectives.parse ["big", "dog"]).Acyclic :=
  ⟨by decide +kernel, by decide +kernel, acyclic_parse adjectives (by decide) ["big", "dog"]⟩

end Grammar

end TreeInsertion
