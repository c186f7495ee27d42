import TreeInsertion.Proofs.Forest.Account
import TreeInsertion.Proofs.Spine

/-!
# What an account recounts

An account retraces the steps of the analysis that lead to its item.  This says what an
item owes to the items that it came from, and which edge a step adds to theirs.
-/

namespace TreeInsertion

variable {W : Type}

namespace Item

/-- Whether `x` is `y` up to the number, the weight and the derivations. -/
structure Agrees (y x : Item W) : Prop where
  tree : x.tree = y.tree
  key : x.key = y.key

namespace Agrees

variable {x y : Item W}

theorem layer (h : y.Agrees x) : x.layer.val = y.layer.val :=
  congrArg Key.layer h.key

theorem current (h : y.Agrees x) : x.current = y.current :=
  current_eq h.tree h.layer

theorem dot (h : y.Agrees x) : x.dot = y.dot :=
  congrArg Key.dot h.key

theorem left (h : y.Agrees x) : x.left = y.left :=
  congrArg Key.left h.key

theorem right (h : y.Agrees x) : x.right = y.right :=
  congrArg Key.right h.key

theorem leftAdjoined (h : y.Agrees x) : x.leftAdjoined = y.leftAdjoined :=
  congrArg Key.leftAdjoined h.key

end Agrees

/-- Whether `x` has its dot one further than `p`, and ends at `right`. -/
structure Advances (p x : Item W) (right : Nat) : Prop where
  tree : x.tree = p.tree
  current : x.current = p.current
  dot : x.dot = p.dot + 1
  left : x.left = p.left
  right : x.right = right

theorem advances_advanceTo {p : Item W} (hactive : p.isActive = true) (right : Nat) (weight : W) :
    p.Advances (p.advanceTo right weight) right := by
  rw [advanceTo_eq hactive]
  exact ⟨rfl, rfl, rfl, rfl, rfl⟩

theorem Agrees.advances {p x : Item W} {right : Nat} {weight : W} (hactive : p.isActive = true)
    (h : (p.advanceTo right weight).Agrees x) : p.Advances x right := by
  rw [advanceTo_eq hactive] at h
  exact ⟨h.tree, h.current, h.dot, h.left, h.right⟩

end Item

namespace Chart

def substitutionEdge (p d : Item W) : Edge (AnchoredTree W) :=
  ⟨p.tree, d.tree, p.nextAddress, .substitution⟩

def adjunctionEdge (h a : Item W) (spine : Address) : Edge (AnchoredTree W) :=
  ⟨h.tree, a.tree, spine, .adjunction h.current.address⟩

/-- Whether the derivation put two trees together, and by this edge. -/
inductive IsEdgeOf (c : Chart W) : Derivation → Edge (AnchoredTree W) → Prop where
  | substitution {p d : Item W} (hp : c.Holds p) (hd : c.Holds d) :
      IsEdgeOf c (.substitution p.id d.id) (substitutionEdge p d)
  | adjunction {h a : Item W} {spine : Address} (hh : c.Holds h) (ha : c.Holds a)
      (hspine : a.tree.rule.spine = some spine) :
      IsEdgeOf c (.adjunction h.id a.id) (adjunctionEdge h a spine)

/--
How an account leads to an item: the last step, what the accounts of its premises lead
to, and the edges of all steps.
-/
inductive Recounts [Mul W] (c : Chart W) : Account → Item W → Analysis W → Prop where
  | opened {x : Item W} (hx : c.Holds x) (hdot : x.dot = 1) (hspan : x.left = x.right)
      (hplain : x.leftAdjoined = false) : Recounts c (.mk x.id .predicted []) x []
  | scan {x p : Item W} {A : Account} {E : Analysis W} {word : String} (hx : c.Holds x)
      (hp : Recounts c A p E) (hnext : p.next? = some ⟨.terminal, word⟩)
      (hread : p.tree.mayRead word p.right = true)
      (hagrees : (p.advanceTo (p.right + 1) p.weight).Agrees x) :
      Recounts c (.mk x.id (.scan p.id) [A]) x E
  | foot {x p : Item W} {A : Account} {E : Analysis W} {label : String} (hx : c.Holds x)
      (hp : Recounts c A p E) (hnext : p.next? = some ⟨.foot, label⟩)
      (hagrees : (p.advanceTo p.right p.weight).Agrees x) :
      Recounts c (.mk x.id (.foot p.id) [A]) x E
  | complete {x p d : Item W} {A B : Account} {E F : Analysis W} (hx : c.Holds x)
      (hp : Recounts c A p E) (hd : Recounts c B d F) (hactive : p.isActive = true)
      (hpassive : d.isPassive = true) (htree : d.tree = p.tree)
      (haddress : d.current.address = p.nextAddress) (hspan : d.left = p.right)
      (hagrees : (p.advanceTo d.right (p.weight * d.weight)).Agrees x) :
      Recounts c (.mk x.id (.complete p.id d.id) [A, B]) x (E ++ F)
  | substitution {x p d : Item W} {A B : Account} {E F : Analysis W} (hx : c.Holds x)
      (hp : Recounts c A p E) (hd : Recounts c B d F)
      (hnext : p.next? = some ⟨.substitution, d.tree.root⟩) (hpassive : d.isPassive = true)
      (hroot : d.isRootLayer = true) (hspan : d.left = p.right)
      (hagrees : (p.advanceTo d.right (p.weight * d.weight)).Agrees x) :
      Recounts c (.mk x.id (.substitution p.id d.id) [A, B]) x (E ++ F ++ [substitutionEdge p d])
  | right {x h a : Item W} {A B : Account} {E F : Analysis W} (spine : Address) (hx : c.Holds x)
      (hh : Recounts c A h E) (ha : Recounts c B a F) (hhost : isHost a.tree.root h = true)
      (hplain : h.leftAdjoined = false)
      (haux : isFinishedAuxiliary a.tree.root .right a = true) (hspan : a.left = h.right)
      (hagrees : (joined h a .right).Agrees x) :
      Recounts c (.mk x.id (.adjunction h.id a.id) [A, B]) x (E ++ F ++ [adjunctionEdge h a spine])
  | left {x h a : Item W} {A B : Account} {E F : Analysis W} (spine : Address) (hx : c.Holds x)
      (hh : Recounts c A h E) (ha : Recounts c B a F) (hhost : isHost a.tree.root h = true)
      (haux : isFinishedAuxiliary a.tree.root .left a = true) (hspan : a.right = h.left)
      (hagrees : (joined h a .left).Agrees x) :
      Recounts c (.mk x.id (.adjunction h.id a.id) [A, B]) x (E ++ F ++ [adjunctionEdge h a spine])

section Recounts

variable {sel : Selection W} {starts : SymbolSet} {input : List String}
  {c : Chart W}

theorem Inv.valid_of_holds {n : Nat} (h : c.Inv sel starts n) {x : Item W} (hx : c.Holds x) :
    x.Valid sel n :=
  h.valid x (Array.mem_of_getElem? hx)

theorem edgeOf?_substitution {p d : Item W} (hp : c.Holds p) (hd : c.Holds d) :
    c.edgeOf? (.substitution p.id d.id) = some (substitutionEdge p d) := by
  simp only [Holds] at hp hd
  simp [edgeOf?, hp, hd, substitutionEdge]

theorem exists_spine_of_isFinishedAuxiliary {a : Item W} {label : String} {side : Side}
    (haux : isFinishedAuxiliary label side a = true) :
    ∃ spine, a.tree.rule.spine = some spine := by
  obtain ⟨l, -, -, hspine, -⟩ :=
    Rule.exists_foot_of_side? (isFinishedAuxiliary_iff.1 haux).2.2.1
  exact ⟨l.address, hspine⟩

theorem edgeOf?_adjunction {h a : Item W} {spine : Address} (hh : c.Holds h) (ha : c.Holds a)
    (hspine : a.tree.rule.spine = some spine) :
    c.edgeOf? (.adjunction h.id a.id) = some (adjunctionEdge h a spine) := by
  simp only [Holds] at hh ha
  simp [edgeOf?, hh, ha, hspine, adjunctionEdge]

theorem edgeOf?_eq_some_iff (hfiled : c.Filed) {why : Derivation} {e : Edge (AnchoredTree W)} :
    c.edgeOf? why = some e ↔ c.IsEdgeOf why e := by
  constructor
  · intro hedge
    cases why with
    | substitution parent child =>
        simp only [edgeOf?, Option.bind_eq_bind, Option.bind_eq_some_iff] at hedge
        obtain ⟨p, hp, d, hd, heq⟩ := hedge
        obtain ⟨hp, rfl⟩ := hfiled.holds_of_getElem? hp
        obtain ⟨hd, rfl⟩ := hfiled.holds_of_getElem? hd
        cases heq
        exact .substitution hp hd
    | adjunction host auxiliary =>
        simp only [edgeOf?, Option.bind_eq_bind, Option.bind_eq_some_iff] at hedge
        obtain ⟨h, hh, a, ha, spine, hspine, heq⟩ := hedge
        obtain ⟨hh, rfl⟩ := hfiled.holds_of_getElem? hh
        obtain ⟨ha, rfl⟩ := hfiled.holds_of_getElem? ha
        cases heq
        exact .adjunction hh ha hspine
    | predicted => cases hedge
    | scan source => cases hedge
    | foot source => cases hedge
    | complete parent child => cases hedge
  · rintro (⟨hp, hd⟩ | ⟨hh, ha, hspine⟩)
    · exact edgeOf?_substitution hp hd
    · exact edgeOf?_adjunction hh ha hspine

theorem exists_edgeOf?_adjunction {h a : Item W} {label : String} {side : Side} (hh : c.Holds h)
    (ha : c.Holds a) (haux : isFinishedAuxiliary label side a = true) :
    ∃ spine, c.edgeOf? (.adjunction h.id a.id) = some (adjunctionEdge h a spine) := by
  obtain ⟨spine, hspine⟩ := exists_spine_of_isFinishedAuxiliary haux
  exact ⟨spine, edgeOf?_adjunction hh ha hspine⟩

variable [Mul W]

theorem Recounts.holds {A : Account} {x : Item W} {E : Analysis W} (h : c.Recounts A x E) :
    c.Holds x := by
  cases h <;> assumption

theorem Recounts.id_eq {A : Account} {x : Item W} {E : Analysis W} (h : c.Recounts A x E) :
    A.id = x.id := by
  cases h <;> rfl

theorem agrees_of_step (hsel : sel.Sound) (hinv : c.Inv sel starts input.length) {x y : Item W}
    {why : Derivation} (hx : c.Holds x) (hstep : Step input c.Holds y why)
    (hkey : y.key = x.key) : y.Agrees x := by
  have hy : y.Valid sel input.length := hstep.valid fun _ => hinv.valid_of_holds
  have hid : y.tree.id = x.tree.id := congrArg Item.Key.tree hkey
  exact ⟨(hsel.eq_of_id_eq hy.tree (hinv.valid_of_holds hx).tree hid).symm, hkey.symm⟩

/-- The account of a derivation with two antecedents has two parts. -/
theorem exists_pair {parts : List Account} {i j : Nat} (h : parts.map Account.id = [i, j]) :
    ∃ A B, parts = [A, B] ∧ A.id = i ∧ B.id = j := by
  obtain ⟨A, rest, rfl, hA, hrest⟩ := List.map_eq_cons_iff.1 h
  obtain ⟨B, rfl, hB⟩ := List.map_eq_singleton_iff.1 hrest
  exact ⟨A, B, rfl, hA, hB⟩

/-- Every account of an item retraces steps of the analysis. -/
theorem recounts_of_valid (hsel : sel.Sound) (hinv : c.Inv sel starts input.length)
    (hderived : ∀ x ∈ c.items, Derived input c x) {A : Account} (hA : A.Valid c) {x : Item W}
    (hx : c.Holds x) (hid : A.id = x.id) : c.Recounts A x (A.edges c) := by
  induction hA generalizing x with
  | @mk id why parts hwhy hids _ ih =>
      cases hid
      have hwhy : why ∈ x.derivations := by
        simp only [Holds] at hx
        simpa [derivationsOf, hx] using hwhy
      rcases (hderived x (Array.mem_of_getElem? hx)).explained why hwhy with
        ⟨rfl, hdot, hspan, hplain⟩ | ⟨y, hstep, hkey⟩
      · cases List.map_eq_nil_iff.1 hids
        simpa [Account.edges, edgeOf?] using Recounts.opened hx hdot hspan hplain
      · have hagrees := agrees_of_step hsel hinv hx hstep hkey
        cases hstep with
        | @scan p word hp hnext hread _ =>
            obtain ⟨A, rfl, hA⟩ := List.map_eq_singleton_iff.1 hids
            have hpart := ih A (by simp) hp hA
            simpa [Account.edges, edgeOf?] using Recounts.scan hx hpart hnext hread hagrees
        | @foot p label hp hnext =>
            obtain ⟨A, rfl, hA⟩ := List.map_eq_singleton_iff.1 hids
            have hpart := ih A (by simp) hp hA
            simpa [Account.edges, edgeOf?] using Recounts.foot hx hpart hnext hagrees
        | @complete p d hp hd hactive hpassive htree haddress hspan =>
            obtain ⟨A, B, rfl, hA, hB⟩ := exists_pair hids
            have hsame : d.tree = p.tree :=
              hsel.eq_of_id_eq (hinv.valid_of_holds hd).tree (hinv.valid_of_holds hp).tree htree
            simpa [Account.edges, edgeOf?] using Recounts.complete hx (ih A (by simp) hp hA)
              (ih B (by simp) hd hB) hactive hpassive hsame haddress hspan hagrees
        | @substitution p d hp hd hnext hpassive hroot _ _ hspan =>
            obtain ⟨A, B, rfl, hA, hB⟩ := exists_pair hids
            simpa [Account.edges, edgeOf?_substitution hp hd] using
              Recounts.substitution hx (ih A (by simp) hp hA) (ih B (by simp) hd hB) hnext hpassive
                hroot hspan hagrees
        | @right h a hh ha hhost hplain haux hspan =>
            obtain ⟨A, B, rfl, hA, hB⟩ := exists_pair hids
            obtain ⟨spine, hedge⟩ := exists_edgeOf?_adjunction hh ha haux
            simpa [Account.edges, hedge] using Recounts.right spine hx
              (ih A (by simp) hh hA) (ih B (by simp) ha hB) hhost hplain haux hspan hagrees
        | @left h a hh ha hhost haux hspan =>
            obtain ⟨A, B, rfl, hA, hB⟩ := exists_pair hids
            obtain ⟨spine, hedge⟩ := exists_edgeOf?_adjunction hh ha haux
            simpa [Account.edges, hedge] using Recounts.left spine hx
              (ih A (by simp) hh hA) (ih B (by simp) ha hB) hhost haux hspan hagrees

end Recounts

theorem Filed.nodup_items {c : Chart W} (h : c.Filed) : c.items.toList.Nodup := by
  rw [List.nodup_iff_getElem?_ne_getElem?]
  intro i j hij hj heq
  rw [Array.length_toList] at hj
  rw [Array.getElem?_toList, Array.getElem?_toList] at heq
  have hget := Array.getElem?_eq_getElem hj
  have hi := h.id_eq (heq.trans hget)
  have hj := h.id_eq hget
  omega

end Chart

namespace Grammar

variable {H : Type} [One W] [Mul W]

theorem holds_of_mem_accepting {g : Grammar W} {input : List String} {x : Item W}
    (hx : x ∈ (g.parse input).accepting) : (g.parse input).Holds x :=
  ((g.reached_parse input).inv (g.sound_select input)).filed.getElem?_id
    (Chart.mem_items_of_mem_accepting hx)

/-- The readings are made of the edges of distinct accounts of the accepted items. -/
theorem exists_accounts_of_readings (g : Grammar W) (input : List String) :
    ∃ told : List (Item W × Account), told.Nodup ∧
      (∀ p ∈ told, p.1 ∈ (g.parse input).accepting ∧
        (g.parse input).Recounts p.2 p.1 (p.2.edges (g.parse input))) ∧
      ((g.parse input).readings : List (Forest W H)) =
        told.map fun p => Chart.readingOf p.1.tree (p.2.edges (g.parse input)) := by
  have hinv := (g.reached_parse input).inv (g.sound_select input)
  have hderived := (g.reached_parse input).derived (g.sound_select input)
  have hnodup (id : Nat) : ((g.parse input).derivationsOf id).Nodup := by
    unfold Chart.derivationsOf
    split
    · exact (hderived _ (Array.mem_of_getElem? ‹_›)).nodup
    · exact .nil
  have haccepting : (g.parse input).accepting.Nodup := hinv.filed.nodup_items.filter _
  obtain ⟨told, hdistinct, htold, heq⟩ := Chart.exists_accounts_of_unpackAll hnodup haccepting
  refine ⟨told, hdistinct, fun p hp => ?_, by rw [Chart.readings, heq, List.map_map]; rfl⟩
  obtain ⟨hmem, hid, hvalid⟩ := htold p hp
  exact ⟨hmem, Chart.recounts_of_valid (g.sound_select input) hinv hderived hvalid
    (holds_of_mem_accepting hmem) hid⟩

end Grammar

end TreeInsertion
