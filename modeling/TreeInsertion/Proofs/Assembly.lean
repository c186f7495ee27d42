import TreeInsertion.Proofs.DerivedTree
import TreeInsertion.Proofs.Reading
import TreeInsertion.Proofs.Spine

/-!
# Putting trees together

Derived trees come of the selected trees by substitution and adjunction.  An auxiliary
tree takes the whole subtree of its host into its foot.  Beside the derived tree goes
another reading of it, in which every auxiliary tree stands wholly on its own side of
its host, with all that was put into it.
-/

namespace TreeInsertion

variable {W : Type}

/-- What a host and an auxiliary tree read if the latter stands wholly on one side. -/
def Side.join : Side → List String → List String → List String
  | .left, host, aux => aux ++ host
  | .right, host, aux => host ++ aux

theorem Side.join_nil (side : Side) (ws : List String) : side.join ws [] = ws := by
  cases side <;> simp [join]

/-- The words with the foot of an auxiliary tree, which stands at the edge next to the host. -/
def Side.around : Side → List String → List (Option String)
  | .left, ws => ws.map some ++ [none]
  | .right, ws => none :: ws.map some

namespace Assembly

mutual

/-- The trees for the entries before the dot of a layer. -/
inductive Children (sel : Selection W) (mayJoin : AnchoredTree W → Layer → Side → Prop) :
    AnchoredTree W → Layer → Nat → List DerivedTree → List String → Prop where
  | start {t : AnchoredTree W} {l : Layer} : Children sel mayJoin t l 1 [] []
  | word {t : AnchoredTree W} {l : Layer} {d : Nat} {Ts : List DerivedTree} {ws : List String}
      {word : String} (before : Children sel mayJoin t l d Ts ws)
      (hentry : l.entry? d = some ⟨.terminal, word⟩) :
      Children sel mayJoin t l (d + 1) (Ts ++ [.word word]) (ws ++ [word])
  | foot {t : AnchoredTree W} {l : Layer} {d : Nat} {Ts : List DerivedTree} {ws : List String}
      {label : String} (before : Children sel mayJoin t l d Ts ws)
      (hentry : l.entry? d = some ⟨.foot, label⟩) :
      Children sel mayJoin t l (d + 1) (Ts ++ [.foot]) ws
  | inner {t : AnchoredTree W} {l m : Layer} {d : Nat} {Ts : List DerivedTree} {T : DerivedTree}
      {ws vs : List String} {label : String} (before : Children sel mayJoin t l d Ts ws)
      (hentry : l.entry? d = some ⟨.nonterminal, label⟩)
      (hlayer : t.rule.layer? (l.address.child d) = some m) (node : Node sel mayJoin t m T vs) :
      Children sel mayJoin t l (d + 1) (Ts ++ [T]) (ws ++ vs)
  /-- An initial tree is substituted for the site. -/
  | site {t u : AnchoredTree W} {l m : Layer} {d : Nat} {Ts : List DerivedTree} {T : DerivedTree}
      {ws vs : List String} (before : Children sel mayJoin t l d Ts ws)
      (hentry : l.entry? d = some ⟨.substitution, u.root⟩) (hu : u ∈ sel.trees)
      (hinitial : u.isInitial = true) (hroot : u.rule.layers.head? = some m)
      (node : Node sel mayJoin u m T vs) :
      Children sel mayJoin t l (d + 1) (Ts ++ [T]) (ws ++ vs)

/-- The trees that the node of a layer can become. -/
inductive Node (sel : Selection W) (mayJoin : AnchoredTree W → Layer → Side → Prop) :
    AnchoredTree W → Layer → DerivedTree → List String → Prop where
  | layer {t : AnchoredTree W} {l : Layer} {e : Entry} {Ts : List DerivedTree} {ws : List String}
      (hlhs : l.lhs? = some e) (all : Children sel mayJoin t l l.length Ts ws) :
      Node sel mayJoin t l (.node e.label Ts) ws
  /-- An auxiliary tree is adjoined at the node, above what is there already. -/
  | adjoin {t u : AnchoredTree W} {l m : Layer} {T A : DerivedTree} {ws vs : List String}
      {side : Side} (host : Node sel mayJoin t l T ws) (hsite : t.IsSite l)
      (hjoin : mayJoin t l side) (hu : u ∈ sel.trees) (hside : u.side? = some side)
      (hlabel : l.hasLabel u.root = true) (hroot : u.rule.layers.head? = some m)
      (aux : Node sel mayJoin u m A vs) :
      Node sel mayJoin t l (T.plugInto A) (side.join ws vs)

end

def Anywhere (_ : AnchoredTree W) (_ : Layer) (_ : Side) : Prop :=
  True

/-- Adjunction that does not bring material to the wrong side of a spine. -/
def KeepsSide (t : AnchoredTree W) (l : Layer) (side : Side) : Prop :=
  t.rule.OnSpine l → t.side? = some side

section

variable {sel : Selection W} {mayJoin : AnchoredTree W → Layer → Side → Prop}

theorem Children.one_le {t : AnchoredTree W} {l : Layer} {d : Nat} {Ts : List DerivedTree}
    {ws : List String} (h : Children sel mayJoin t l d Ts ws) : 1 ≤ d := by
  cases h with
  | start => exact Nat.le_refl 1
  | word _ _ => exact Nat.le_add_left 1 _
  | foot _ _ => exact Nat.le_add_left 1 _
  | inner _ _ _ _ => exact Nat.le_add_left 1 _
  | site _ _ _ _ _ _ => exact Nat.le_add_left 1 _

/-- Before the first entry there is nothing. -/
theorem Children.eq_nil {t : AnchoredTree W} {l : Layer} {Ts : List DerivedTree} {ws : List String}
    (h : Children sel mayJoin t l 1 Ts ws) : Ts = [] ∧ ws = [] := by
  cases h with
  | start => exact ⟨rfl, rfl⟩
  | word before _ => exact absurd before.one_le (Nat.not_succ_le_zero 0)
  | foot before _ => exact absurd before.one_le (Nat.not_succ_le_zero 0)
  | inner before _ _ _ => exact absurd before.one_le (Nat.not_succ_le_zero 0)
  | site before _ _ _ _ _ => exact absurd before.one_le (Nat.not_succ_le_zero 0)

theorem Children.leavesAll_eq_nil {t : AnchoredTree W} {l : Layer} {d : Nat}
    {Ts : List DerivedTree} {ws : List String} (h : Children sel mayJoin t l d Ts ws) (hd : d = 1) :
    DerivedTree.leavesAll Ts = [] ∧ ws = [] := by
  subst hd
  obtain ⟨rfl, rfl⟩ := h.eq_nil
  exact ⟨rfl, rfl⟩

/-! ## Trees without a foot -/

mutual

theorem Children.isComplete (hsel : sel.Sound) {t : AnchoredTree W} {l : Layer} {d : Nat}
    {Ts : List DerivedTree} {ws : List String} (ht : t ∈ sel.trees) (hl : l ∈ t.rule.layers)
    (hinitial : t.isInitial = true) :
    Children sel mayJoin t l d Ts ws → none ∉ DerivedTree.leavesAll Ts
  | .start => by simp [DerivedTree.leavesAll]
  | .word before hentry => by
      have hbefore := before.isComplete hsel ht hl hinitial
      simpa [DerivedTree.leaves] using hbefore
  | .foot before hentry =>
      absurd hentry ((hsel.checked t ht).entry?_ne_foot hinitial hl before.one_le _)
  | .inner before hentry hlayer node => by
      have hbefore := before.isComplete hsel ht hl hinitial
      have hnode := node.isComplete hsel ht (Rule.mem_of_layer? hlayer).1 hinitial
      rw [DerivedTree.leavesAll_concat, List.mem_append]
      exact fun hmem => hmem.elim hbefore hnode
  | .site before hentry hu hinitial' hroot node => by
      have hbefore := before.isComplete hsel ht hl hinitial
      have hnode := node.isComplete hsel hu (List.mem_of_mem_head? hroot) hinitial'
      rw [DerivedTree.leavesAll_concat, List.mem_append]
      exact fun hmem => hmem.elim hbefore hnode

/-- What becomes of a node of an initial tree has no foot. -/
theorem Node.isComplete (hsel : sel.Sound) {t : AnchoredTree W} {l : Layer} {T : DerivedTree}
    {ws : List String} (ht : t ∈ sel.trees) (hl : l ∈ t.rule.layers)
    (hinitial : t.isInitial = true) : Node sel mayJoin t l T ws → T.IsComplete
  | .layer hlhs all => all.isComplete hsel ht hl hinitial
  | .adjoin host _ _ _ _ _ _ _ =>
      (host.isComplete hsel ht hl hinitial).plugInto _

end

/-! ## Trees that keep to their sides -/

/-- Whether the leaves up to the dot are the words, with the foot at the edge of a spine. -/
structure KeepsUpTo (t : AnchoredTree W) (l : Layer) (d : Nat) (leaves : List (Option String))
    (ws : List String) : Prop where
  off : ¬ t.rule.OnSpine l → leaves = ws.map some
  before : ∀ side, t.side? = some side → t.rule.OnSpine l → d ≤ side.edge l →
    leaves = ws.map some
  behind : ∀ side, t.side? = some side → t.rule.OnSpine l → side.edge l < d →
    leaves = side.around ws

/-- Whether the leaves are the words, with the foot at the edge of a spine. -/
structure Keeps (t : AnchoredTree W) (l : Layer) (leaves : List (Option String))
    (ws : List String) : Prop where
  off : ¬ t.rule.OnSpine l → leaves = ws.map some
  on : ∀ side, t.side? = some side → t.rule.OnSpine l → leaves = side.around ws

namespace KeepsUpTo

variable {t : AnchoredTree W} {l : Layer} {d : Nat} {leaves : List (Option String)}
  {ws : List String}

/-- Words at an entry that is not at the edge of a spine. -/
theorem append (h : KeepsUpTo t l d leaves ws) (hlt : d < l.length)
    (hne : ∀ side, t.side? = some side → t.rule.OnSpine l → d ≠ side.edge l)
    (vs : List String) : KeepsUpTo t l (d + 1) (leaves ++ vs.map some) (ws ++ vs) := by
  refine ⟨fun hoff => ?_, fun side hside hon hle => ?_, fun side hside hon hlt' => ?_⟩
  · rw [h.off hoff, List.map_append]
  · rw [h.before side hside hon (Nat.le_of_succ_le hle), List.map_append]
  · have hedge : side.edge l < d :=
      Nat.lt_of_le_of_ne (Nat.le_of_lt_succ hlt') (hne side hside hon).symm
    rw [h.behind side hside hon hedge]
    cases side with
    | left =>
        rw [Side.edge] at hedge
        omega
    | right => simp [Side.around]

/-- The foot, or a node on the spine, at the edge. -/
theorem append_around (h : KeepsUpTo t l d leaves ws) (hnil : d = 1 → leaves = [] ∧ ws = [])
    {side : Side} (hside : t.side? = some side) (hon : t.rule.OnSpine l) (hd : d = side.edge l)
    (vs : List String) : KeepsUpTo t l (d + 1) (leaves ++ side.around vs) (ws ++ vs) := by
  refine ⟨fun hoff => absurd hon hoff, fun side' hside' _ hle => ?_, fun side' hside' _ _ => ?_⟩
  · rw [hside] at hside'
    cases hside'
    omega
  · rw [hside] at hside'
    cases hside'
    rw [h.before side hside hon (Nat.le_of_eq hd)]
    cases side with
    | left => simp [Side.around]
    | right =>
        obtain ⟨-, rfl⟩ := hnil hd
        simp [Side.around]

end KeepsUpTo

theorem Keeps.adjoin {t : AnchoredTree W} {l : Layer} {T A : DerivedTree} {ws vs : List String}
    {side : Side} (h : Keeps t l T.leaves ws) (hA : A.leaves = side.around vs)
    (hkeeps : KeepsSide t l side) : Keeps t l (T.plugInto A).leaves (side.join ws vs) := by
  rw [DerivedTree.leaves_plugInto, hA]
  refine ⟨fun hoff => ?_, fun side' hside' hon => ?_⟩
  · cases side with
    | left => simp [Side.around, Side.join, DerivedTree.plugLeaf, h.off hoff]
    | right => simp [Side.around, Side.join, DerivedTree.plugLeaf, h.off hoff]
  · rw [hkeeps hon] at hside'
    cases hside'
    have hT := h.on side (hkeeps hon) hon
    cases side with
    | left => simp [Side.around, Side.join, DerivedTree.plugLeaf, hT]
    | right => simp [Side.around, Side.join, DerivedTree.plugLeaf, hT]

/-- A word or a substitution site never stands at the edge of a spine. -/
theorem ne_edge_of_entry? (hsel : sel.Sound) {t : AnchoredTree W} {l : Layer} (ht : t ∈ sel.trees)
    (hl : l ∈ t.rule.layers) {d : Nat} {e : Entry} (hentry : l.entry? d = some e)
    (hfoot : e.role ≠ .foot) (hinner : e.role ≠ .nonterminal) :
    ∀ side, t.side? = some side → t.rule.OnSpine l → d ≠ side.edge l := by
  rintro side hside hon rfl
  have hchecked := hsel.checked t ht
  rcases (hchecked.hasSpine hside).entry?_edge hchecked hl hon with
    ⟨label, hedge⟩ | ⟨label, m, hedge, -⟩
  · rw [hentry] at hedge
    cases hedge
    exact hfoot rfl
  · rw [hentry] at hedge
    cases hedge
    exact hinner rfl

/-- The leaves of the next node, which may be on the spine. -/
theorem KeepsUpTo.inner (hsel : sel.Sound) {t : AnchoredTree W} {l m : Layer} {d : Nat}
    {leaves leaves' : List (Option String)} {ws vs : List String} {label : String}
    (ht : t ∈ sel.trees) (hl : l ∈ t.rule.layers) (h : KeepsUpTo t l d leaves ws)
    (hnil : d = 1 → leaves = [] ∧ ws = []) (hentry : l.entry? d = some ⟨.nonterminal, label⟩)
    (hlayer : t.rule.layer? (l.address.child d) = some m) (hnode : Keeps t m leaves' vs) :
    KeepsUpTo t l (d + 1) (leaves ++ leaves') (ws ++ vs) := by
  have hchecked := hsel.checked t ht
  obtain ⟨hm, haddress⟩ := Rule.mem_of_layer? hlayer
  by_cases hon' : t.rule.OnSpine m
  · rcases hchecked.isInitial_or_exists_side with hinitial | ⟨side, hside⟩
    · exact absurd hon' (Rule.not_onSpine_of_isInitial hinitial m)
    · obtain ⟨hon, hd⟩ := (hchecked.hasSpine hside).child l hl m hm d haddress hon'
      rw [hnode.on side hside hon']
      exact h.append_around hnil hside hon hd vs
  · rw [hnode.off hon']
    refine h.append (Layer.lt_length_of_entry? hentry) ?_ vs
    rintro side hside hon rfl
    rcases (hchecked.hasSpine hside).entry?_edge hchecked hl hon with
      ⟨label, hfoot⟩ | ⟨label, m', -, hlayer', hon⟩
    · rw [hentry] at hfoot
      cases hfoot
    · rw [hlayer] at hlayer'
      cases hlayer'
      exact hon' hon

mutual

theorem Children.keepsUpTo (hsel : sel.Sound) {t : AnchoredTree W} {l : Layer} {d : Nat}
    {Ts : List DerivedTree} {ws : List String} (ht : t ∈ sel.trees) (hl : l ∈ t.rule.layers) :
    Children sel KeepsSide t l d Ts ws → KeepsUpTo t l d (DerivedTree.leavesAll Ts) ws
  | .start => by
      refine ⟨fun _ => rfl, fun _ _ _ _ => rfl, fun side hside hon hlt => ?_⟩
      have hchecked := hsel.checked t ht
      exact absurd ((hchecked.hasSpine hside).one_le_edge hchecked hl hon) (Nat.not_le_of_lt hlt)
  | .word before hentry => by
      have hbefore := before.keepsUpTo hsel ht hl
      have hne := ne_edge_of_entry? hsel ht hl hentry (by simp) (by simp)
      rw [DerivedTree.leavesAll_concat]
      exact hbefore.append (Layer.lt_length_of_entry? hentry) hne [_]
  | .foot before hentry => by
      have hbefore := before.keepsUpTo hsel ht hl
      have hchecked := hsel.checked t ht
      rw [DerivedTree.leavesAll_concat]
      rcases hchecked.isInitial_or_exists_side with hinitial | ⟨side, hside⟩
      · exact absurd hentry (hchecked.entry?_ne_foot hinitial hl before.one_le _)
      · obtain ⟨hon, hd⟩ := (hchecked.hasSpine hside).foot l hl _ _ before.one_le hentry
        have hfoot := hbefore.append_around before.leavesAll_eq_nil hside hon hd []
        cases side with
        | left => simpa [DerivedTree.leaves, Side.around] using hfoot
        | right => simpa [DerivedTree.leaves, Side.around] using hfoot
  | .inner before hentry hlayer node => by
      have hbefore := before.keepsUpTo hsel ht hl
      have hnode := node.keeps hsel ht (Rule.mem_of_layer? hlayer).1
      rw [DerivedTree.leavesAll_concat]
      exact hbefore.inner hsel ht hl before.leavesAll_eq_nil hentry hlayer hnode
  | .site before hentry hu hinitial hroot node => by
      have hbefore := before.keepsUpTo hsel ht hl
      have hnode := node.keeps hsel hu (List.mem_of_mem_head? hroot)
      have hne := ne_edge_of_entry? hsel ht hl hentry (by simp) (by simp)
      rw [DerivedTree.leavesAll_concat, hnode.off (Rule.not_onSpine_of_isInitial hinitial _)]
      exact hbefore.append (Layer.lt_length_of_entry? hentry) hne _

/-- The leaves of a node are its words, with the foot on the side that its tree leaves free. -/
theorem Node.keeps (hsel : sel.Sound) {t : AnchoredTree W} {l : Layer} {T : DerivedTree}
    {ws : List String} (ht : t ∈ sel.trees) (hl : l ∈ t.rule.layers) :
    Node sel KeepsSide t l T ws → Keeps t l T.leaves ws
  | .layer hlhs all => by
      have hall := all.keepsUpTo hsel ht hl
      have hchecked := hsel.checked t ht
      exact ⟨hall.off, fun side hside hon => hall.behind side hside hon
        ((hchecked.hasSpine hside).edge_lt hchecked hl hon)⟩
  | .adjoin host hsite hjoin hu hside hlabel hroot aux => by
      have hhost := host.keeps hsel ht hl
      have hm := List.mem_of_mem_head? hroot
      have haux := aux.keeps hsel hu hm
      have haddress := ((hsel.head?_eq_some_iff hu).1 hroot).2
      have hon := (hsel.checked _ hu).onSpine_of_isRoot hside haddress
      exact hhost.adjoin (haux.on _ hside hon) hjoin

end

/-- Off the spine of its tree, a node becomes a tree of its words. -/
theorem Node.words_eq (hsel : sel.Sound) {t : AnchoredTree W} {l : Layer} {T : DerivedTree}
    {ws : List String} (ht : t ∈ sel.trees) (hl : l ∈ t.rule.layers) (hoff : ¬ t.rule.OnSpine l)
    (h : Node sel KeepsSide t l T ws) : T.words = ws :=
  DerivedTree.words_of_leaves ((h.keeps hsel ht hl).off hoff)

/-! ## Grammars that separate the sides -/

mutual

theorem Children.mono {mayJoin' : AnchoredTree W → Layer → Side → Prop}
    (hjoins : ∀ t ∈ sel.trees, ∀ l ∈ t.rule.layers, ∀ u ∈ sel.trees, ∀ side,
      u.side? = some side → t.IsSite l → l.hasLabel u.root = true → mayJoin' t l side)
    {t : AnchoredTree W} {l : Layer} {d : Nat} {Ts : List DerivedTree} {ws : List String}
    (ht : t ∈ sel.trees) (hl : l ∈ t.rule.layers) :
    Children sel mayJoin t l d Ts ws → Children sel mayJoin' t l d Ts ws
  | .start => .start
  | .word before hentry => .word (before.mono hjoins ht hl) hentry
  | .foot before hentry => .foot (before.mono hjoins ht hl) hentry
  | .inner before hentry hlayer node =>
      .inner (before.mono hjoins ht hl) hentry hlayer
        (node.mono hjoins ht (Rule.mem_of_layer? hlayer).1)
  | .site before hentry hu hinitial hroot node =>
      .site (before.mono hjoins ht hl) hentry hu hinitial hroot
        (node.mono hjoins hu (List.mem_of_mem_head? hroot))

/-- Whatever is adjoined may be adjoined as well under a policy that allows all of it. -/
theorem Node.mono {mayJoin' : AnchoredTree W → Layer → Side → Prop}
    (hjoins : ∀ t ∈ sel.trees, ∀ l ∈ t.rule.layers, ∀ u ∈ sel.trees, ∀ side,
      u.side? = some side → t.IsSite l → l.hasLabel u.root = true → mayJoin' t l side)
    {t : AnchoredTree W} {l : Layer} {T : DerivedTree} {ws : List String}
    (ht : t ∈ sel.trees) (hl : l ∈ t.rule.layers) :
    Node sel mayJoin t l T ws → Node sel mayJoin' t l T ws
  | .layer hlhs all => .layer hlhs (all.mono hjoins ht hl)
  | .adjoin host hsite _ hu hside hlabel hroot aux =>
      .adjoin (host.mono hjoins ht hl) hsite (hjoins _ ht _ hl _ hu _ hside hsite hlabel) hu hside
        hlabel hroot (aux.mono hjoins hu (List.mem_of_mem_head? hroot))

end

end

end Assembly

end TreeInsertion
