import Mathlib.Logic.Relation
import TreeInsertion.Proofs.AnchorPlaces
import TreeInsertion.Proofs.Forest.Recounting

/-!
# Stems

The edges that an account gives branch off the tree of its item.  Each of them goes back,
from tree to tree, to one edge at that tree, its stem, and the place of the stem is one
that the item has recognised.
-/

namespace TreeInsertion

open Relation

variable {W : Type}

def Derivation.isAdjunction : Derivation → Bool
  | adjunction _ _ => true
  | _ => false

def Edge.site {α : Type} (e : Edge α) : Address :=
  match e.attachment with
  | .substitution => e.connector
  | .adjunction site => site

/-- Whether `e` is one of the edges and leads on from the tree that `d` puts in. -/
def Analysis.Continues (E : Analysis W) (d e : Edge (AnchoredTree W)) : Prop :=
  e ∈ E ∧ e.first = d.second

theorem Analysis.Continues.mono {E F : Analysis W} (hsubset : E ⊆ F)
    {d e : Edge (AnchoredTree W)} (h : Continues E d e) : Continues F d e :=
  ⟨hsubset h.1, h.2⟩

/-- Whether `e` goes back to the stem `s` along the edges. -/
def Analysis.Carries (E : Analysis W) (s e : Edge (AnchoredTree W)) : Prop :=
  ReflTransGen (Analysis.Continues E) s e

theorem Analysis.Carries.mono {E F : Analysis W} (hsubset : E ⊆ F)
    {s e : Edge (AnchoredTree W)} (h : Carries E s e) : Carries F s e :=
  ReflTransGen.mono (fun _ _ => Continues.mono hsubset) s e h

theorem Analysis.Carries.mem {E : Analysis W} {s e : Edge (AnchoredTree W)} (h : Carries E s e)
    (hs : s ∈ E) : e ∈ E := by
  cases h with
  | refl => exact hs
  | tail _ hlast => exact hlast.1

def Analysis.StemsAre (E : Analysis W) (P : Edge (AnchoredTree W) → Prop) : Prop :=
  ∀ e ∈ E, ∃ s ∈ E, P s ∧ E.Carries s e

namespace Analysis.StemsAre

variable {E F : Analysis W} {P Q : Edge (AnchoredTree W) → Prop}

theorem imp_of_mem (h : E.StemsAre P) (hPQ : ∀ s ∈ E, P s → Q s) : E.StemsAre Q := by
  intro e he
  obtain ⟨s, hs, hP, hcarries⟩ := h e he
  exact ⟨s, hs, hPQ s hs hP, hcarries⟩

theorem imp (h : E.StemsAre P) (hPQ : ∀ s, P s → Q s) : E.StemsAre Q :=
  h.imp_of_mem fun s _ => hPQ s

theorem append (hE : E.StemsAre P) (hF : F.StemsAre P) :
    Analysis.StemsAre (E ++ F) P := by
  intro e he
  rcases List.mem_append.1 he with he | he
  · obtain ⟨s, hs, hP, hcarries⟩ := hE e he
    exact ⟨s, List.mem_append_left F hs, hP, hcarries.mono (List.subset_append_left E F)⟩
  · obtain ⟨s, hs, hP, hcarries⟩ := hF e he
    exact ⟨s, List.mem_append_right E hs, hP, hcarries.mono (List.subset_append_right E F)⟩

/-- All that is put in below the second tree of an edge goes back to the edge. -/
theorem attached {k : Edge (AnchoredTree W)} (hF : F.StemsAre fun s => s.first = k.second)
    (hk : P k) : Analysis.StemsAre (F ++ [k]) P := by
  have hsubset : F ⊆ F ++ [k] := List.subset_append_left F [k]
  intro e he
  refine ⟨k, by simp, hk, ?_⟩
  rcases List.mem_append.1 he with he | he
  · obtain ⟨s, hs, hfirst, hcarries⟩ := hF e he
    exact .head ⟨hsubset hs, hfirst⟩ (hcarries.mono hsubset)
  · rw [List.mem_singleton.1 he]
    exact .refl

/-- An edge leads on from the tree of the stems or from a tree that is put in. -/
theorem first_mem {t : AnchoredTree W} (h : E.StemsAre fun s => s.first = t)
    {e : Edge (AnchoredTree W)} (he : e ∈ E) : e.first ∈ t :: E.map Edge.second := by
  obtain ⟨s, hs, hfirst, hcarries⟩ := h e he
  cases hcarries with
  | refl => exact List.mem_cons.2 (Or.inl hfirst)
  | tail hcarries hlast =>
      rw [hlast.2]
      exact List.mem_cons_of_mem t (List.mem_map_of_mem (Carries.mem hcarries hs))

end Analysis.StemsAre

namespace Item

/-! ## Places before the dot -/

/-- Whether the way to the address leads through an entry before the dot. -/
def Passed (x : Item W) (g : Address) : Prop :=
  ∃ i rest, g.path = x.current.address.path ++ i :: rest ∧ i < x.dot

theorem nextAddress_path (x : Item W) :
    x.nextAddress.path = x.current.address.path ++ [x.dot] :=
  rfl

/-- What the item passes is what it had passed and what lies below the entry behind its dot. -/
theorem Advances.passed_iff {p x : Item W} {right : Nat} (h : p.Advances x right) {g : Address} :
    x.Passed g ↔ p.Passed g ∨ ∃ rest, g.path = p.nextAddress.path ++ rest := by
  unfold Passed
  rw [h.current, h.dot, nextAddress_path]
  constructor
  · rintro ⟨i, rest, hpath, hi⟩
    rcases Nat.lt_succ_iff_lt_or_eq.1 hi with hlt | rfl
    · exact Or.inl ⟨i, rest, hpath, hlt⟩
    · exact Or.inr ⟨rest, by simp [hpath]⟩
  · rintro (⟨i, rest, hpath, hi⟩ | ⟨rest, hpath⟩)
    · exact ⟨i, rest, hpath, Nat.lt_succ_of_lt hi⟩
    · exact ⟨p.dot, rest, by simp [hpath], Nat.lt_succ_self _⟩

theorem not_passed_of_next {p : Item W} {g : Address} {rest : List Nat}
    (h : g.path = p.nextAddress.path ++ rest) : ¬ p.Passed g := by
  rintro ⟨i, rest', hpath, hi⟩
  rw [h, nextAddress_path, List.append_assoc] at hpath
  have heq : p.dot = i := (List.cons.inj (List.append_cancel_left hpath)).1
  omega

theorem Passed.below_child {p d : Item W} (haddress : d.current.address = p.nextAddress)
    {g : Address} (h : d.Passed g) : ∃ rest, g.path = p.nextAddress.path ++ rest := by
  obtain ⟨i, rest, hpath, -⟩ := h
  exact ⟨i :: rest, by rw [hpath, haddress]⟩

theorem Agrees.passed_iff {x y : Item W} (h : y.Agrees x) {g : Address} :
    x.Passed g ↔ y.Passed g := by
  unfold Passed
  rw [h.current, h.dot]

/-- At the dot, the place for a word is a terminal or lies below a nonterminal. -/
theorem role_of_word {sel : Selection W} (hsel : sel.Sound) {p : Item W}
    (hp : p.tree ∈ sel.trees) {e : Entry} (hnext : p.next? = some e) {g : Address} {word : String}
    (hg : p.tree.rule.HasWordAt g word) {rest : List Nat}
    (hpath : g.path = p.nextAddress.path ++ rest) :
    (rest = [] ∧ e = ⟨.terminal, word⟩) ∨ (rest ≠ [] ∧ e.role = .nonterminal) := by
  have hentry : p.current.entry? p.dot = some e := hnext
  have hbelow : g.path = p.current.address.path ++ p.dot :: rest := by
    simp [hpath, nextAddress_path]
  obtain ⟨-, ⟨hrest, hterminal⟩ | ⟨hrest, label, hnonterminal⟩⟩ :=
    (hsel.checked p.tree hp).exists_entry_of_word hg p.current_mem hbelow
  · rw [hentry] at hterminal
    exact Or.inl ⟨hrest, Option.some.inj hterminal⟩
  · rw [hentry] at hnonterminal
    cases hnonterminal
    exact Or.inr ⟨hrest, rfl⟩

/-- What lies below the entry behind the dot is what the finished layer for it has passed. -/
theorem passed_child {sel : Selection W} {n : Nat} {p d : Item W} (hsel : sel.Sound)
    (hp : p.Valid sel n) (hd : d.Valid sel n) (hpassive : d.isPassive = true)
    (htree : d.tree = p.tree) (haddress : d.current.address = p.nextAddress) {g : Address}
    {word : String} (hg : p.tree.rule.HasWordAt g word) {rest : List Nat}
    (hpath : g.path = p.nextAddress.path ++ rest) : d.Passed g := by
  obtain ⟨-, e, -, hnext⟩ :=
    Valid.next?_of_child hsel hp hd (congrArg AnchoredTree.id htree.symm) haddress
  rcases role_of_word hsel hp.tree hnext hg hpath with ⟨-, hrole⟩ | ⟨hrest, -⟩
  · cases hrole
  · obtain ⟨i, rest, rfl⟩ := List.exists_cons_of_ne_nil hrest
    rw [← htree] at hg
    have hbelow : g.path = d.current.address.path ++ i :: rest := by rw [hpath, haddress]
    have hlt := (hsel.checked d.tree hd.tree).lt_length_of_word hg d.current_mem hbelow
    exact ⟨i, rest, hbelow, Nat.lt_of_lt_of_le hlt (isPassive_iff.1 hpassive)⟩

/-- A finished root has passed every word. -/
theorem passed_of_finished {sel : Selection W} (hsel : sel.Sound) {x : Item W}
    (hx : x.tree ∈ sel.trees) (hpassive : x.isPassive = true) (hroot : x.isRootLayer = true)
    {g : Address} {word : String} (hg : x.tree.rule.HasWordAt g word) : x.Passed g := by
  have hchecked := hsel.checked x.tree hx
  obtain ⟨i, rest, hpath⟩ := hchecked.exists_below_root hg
  rw [← isRootLayer_iff.1 hroot] at hpath
  have hlt := hchecked.lt_length_of_word hg x.current_mem hpath
  exact ⟨i, rest, hpath, Nat.lt_of_lt_of_le hlt (isPassive_iff.1 hpassive)⟩

/-! ## Edges at the tree of an item -/

/--
Whether the item has come up with the edge at its own tree: at a place before its dot, or
at its own node if its derivation `why` has joined an auxiliary tree.  A node that no left
one is joined to bears right ones only.
-/
structure Bears (x : Item W) (why : Derivation) (s : Edge (AnchoredTree W)) : Prop where
  first : s.first = x.tree
  place : x.Passed s.site ∨
    (s.site = x.current.address ∧ why.isAdjunction = true ∧ x.isPassive = true ∧
      (x.leftAdjoined = false → s.second.side? = some .right))

theorem Bears.passed {p : Item W} {why : Derivation} {s : Edge (AnchoredTree W)}
    (hs : p.Bears why s) (hactive : p.isActive = true) : p.Passed s.site := by
  rcases hs.place with hpassed | ⟨-, -, hpassive, -⟩
  · exact hpassed
  · simp [isPassive, hactive] at hpassive

theorem Bears.advances {p x : Item W} {right : Nat} {why why' : Derivation}
    {s : Edge (AnchoredTree W)} (hs : p.Bears why s) (hactive : p.isActive = true)
    (h : p.Advances x right) : x.Bears why' s :=
  ⟨hs.first.trans h.tree.symm, Or.inl (h.passed_iff.2 (Or.inl (hs.passed hactive)))⟩

theorem bears_of_next {p x : Item W} {right : Nat} {why : Derivation}
    {s : Edge (AnchoredTree W)} (h : p.Advances x right) (hfirst : s.first = p.tree)
    {rest : List Nat} (hsite : s.site.path = p.nextAddress.path ++ rest) : x.Bears why s :=
  ⟨hfirst.trans h.tree.symm, Or.inl (h.passed_iff.2 (Or.inr ⟨rest, hsite⟩))⟩

theorem bears_substitutionEdge {p d x : Item W} {right : Nat} {why : Derivation}
    (h : p.Advances x right) : x.Bears why (Chart.substitutionEdge p d) :=
  bears_of_next h rfl (List.append_nil _).symm

/-- What an inner node bears lies below its address. -/
theorem Bears.exists_below {p d : Item W} {why : Derivation} {s : Edge (AnchoredTree W)}
    (hs : d.Bears why s) (haddress : d.current.address = p.nextAddress) :
    ∃ rest, s.site.path = p.nextAddress.path ++ rest := by
  rcases hs.place with hpassed | ⟨hsite, -⟩
  · exact hpassed.below_child haddress
  · exact ⟨[], by rw [hsite, haddress, List.append_nil]⟩

theorem Bears.child {p d x : Item W} {right : Nat} {why why' : Derivation}
    {s : Edge (AnchoredTree W)} (hs : d.Bears why s) (htree : d.tree = p.tree)
    (haddress : d.current.address = p.nextAddress) (h : p.Advances x right) : x.Bears why' s := by
  obtain ⟨rest, hsite⟩ := hs.exists_below haddress
  exact bears_of_next h (hs.first.trans htree) hsite

/-- A node keeps what it bears when an auxiliary tree is joined to it. -/
theorem Bears.joined [Mul W] {h a x : Item W} {side : Side} {why : Derivation} {i j : Nat}
    {s : Edge (AnchoredTree W)} (hs : h.Bears why s)
    (hagrees : (Chart.joined h a side).Agrees x) : x.Bears (.adjunction i j) s := by
  cases side with
  | left =>
      refine ⟨hs.first.trans hagrees.tree.symm, ?_⟩
      have hadjoined : x.leftAdjoined = true := hagrees.leftAdjoined
      rcases hs.place with hpassed | ⟨hsite, -, hpassive, -⟩
      · exact Or.inl (hagrees.passed_iff.2 hpassed)
      · refine Or.inr ⟨hsite.trans (congrArg Layer.address hagrees.current.symm), rfl, ?_, ?_⟩
        · rw [isPassive_iff, hagrees.dot, hagrees.current]
          exact isPassive_iff.1 hpassive
        · simp [hadjoined]
  | right =>
      refine ⟨hs.first.trans hagrees.tree.symm, ?_⟩
      rcases hs.place with hpassed | ⟨hsite, -, hpassive, hright⟩
      · exact Or.inl (hagrees.passed_iff.2 hpassed)
      · refine Or.inr ⟨hsite.trans (congrArg Layer.address hagrees.current.symm), rfl, ?_, ?_⟩
        · rw [isPassive_iff, hagrees.dot, hagrees.current]
          exact isPassive_iff.1 hpassive
        · rw [hagrees.leftAdjoined]
          exact hright

theorem bears_adjunctionEdge [Mul W] {h a x : Item W} {side : Side} {i j : Nat} {spine : Address}
    (hhost : Chart.isHost a.tree.root h = true)
    (haux : Chart.isFinishedAuxiliary a.tree.root side a = true)
    (hagrees : (Chart.joined h a side).Agrees x) :
    x.Bears (.adjunction i j) (Chart.adjunctionEdge h a spine) := by
  have hside : a.tree.side? = some side := (Chart.isFinishedAuxiliary_iff.1 haux).2.2.1
  have hpassive := isPassive_iff.1 (Chart.isHost_iff.1 hhost).1
  cases side with
  | left =>
      have hadjoined : x.leftAdjoined = true := hagrees.leftAdjoined
      refine ⟨hagrees.tree.symm, Or.inr ⟨?_, rfl, ?_, by simp [hadjoined]⟩⟩
      · exact congrArg Layer.address hagrees.current.symm
      · rw [isPassive_iff, hagrees.dot, hagrees.current]
        exact hpassive
  | right =>
      refine ⟨hagrees.tree.symm, Or.inr ⟨?_, rfl, ?_, fun _ => hside⟩⟩
      · exact congrArg Layer.address hagrees.current.symm
      · rw [isPassive_iff, hagrees.dot, hagrees.current]
        exact hpassive

end Item

namespace Chart

/-- Every edge of an account goes back to a stem that the item bears. -/
theorem Recounts.stemsAre [Mul W] {c : Chart W} {A : Account} {x : Item W} {E : Analysis W}
    (h : c.Recounts A x E) : E.StemsAre (x.Bears A.why) := by
  induction h with
  | opened => simp [Analysis.StemsAre]
  | scan hx hp hnext hread hagrees ih =>
      have hactive := Item.isActive_of_next? hnext
      exact ih.imp fun s hs => hs.advances hactive (hagrees.advances hactive)
  | foot hx hp hnext hagrees ih =>
      have hactive := Item.isActive_of_next? hnext
      exact ih.imp fun s hs => hs.advances hactive (hagrees.advances hactive)
  | complete hx hp hd hactive hpassive htree haddress hspan hagrees ihp ihd =>
      have hadvances := hagrees.advances hactive
      exact (ihp.imp fun s hs => hs.advances hactive hadvances).append
        (ihd.imp fun s hs => hs.child htree haddress hadvances)
  | substitution hx hp hd hnext hpassive hroot hspan hagrees ihp ihd =>
      have hactive := Item.isActive_of_next? hnext
      have hadvances := hagrees.advances hactive
      rw [List.append_assoc]
      exact (ihp.imp fun s hs => hs.advances hactive hadvances).append
        (.attached (ihd.imp fun s hs => hs.first) (Item.bears_substitutionEdge hadvances))
  | right spine hx hh ha hhost hplain haux hspan hagrees ihh iha =>
      rw [List.append_assoc]
      exact (ihh.imp fun s hs => hs.joined hagrees).append
        (.attached (iha.imp fun s hs => hs.first) (Item.bears_adjunctionEdge hhost haux hagrees))
  | left spine hx hh ha hhost haux hspan hagrees ihh iha =>
      rw [List.append_assoc]
      exact (ihh.imp fun s hs => hs.joined hagrees).append
        (.attached (iha.imp fun s hs => hs.first) (Item.bears_adjunctionEdge hhost haux hagrees))

end Chart

end TreeInsertion
