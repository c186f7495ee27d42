import TreeInsertion.Proofs.Chart.Soundness
import TreeInsertion.Proofs.Forest.Splitting
import TreeInsertion.Proofs.Forest.Windows

/-!
# Accounts with the same edges

The edges tell the whole account of an item, once its place is known.  The last step is
known from the layer, the place of the dot and the edges at the node; its edge is the
outermost one on its side; and the edges before it split between its premises.
-/

namespace TreeInsertion

variable {W : Type}

def Derivation.passed? : Derivation → Option Role
  | predicted => none
  | scan _ => some .terminal
  | foot _ => some .foot
  | complete _ _ => some .nonterminal
  | substitution _ _ => some .substitution
  | adjunction _ _ => none

/-- Whether two items stand at one place of a tree and start at one position. -/
structure Item.Alike (x y : Item W) : Prop where
  tree : x.tree = y.tree
  current : x.current = y.current
  dot : x.dot = y.dot
  left : x.left = y.left

namespace Item

variable {sel : Selection W} {n : Nat} {p q x y : Item W} {r r' : Nat}

theorem Alike.before (h : x.Alike y) (hx : p.Advances x r) (hy : q.Advances y r') :
    p.Alike q where
  tree := hx.tree.symm.trans (h.tree.trans hy.tree)
  current := hx.current.symm.trans (h.current.trans hy.current)
  dot := by
    have hdot := h.dot
    rw [hx.dot, hy.dot] at hdot
    exact Nat.succ.inj hdot
  left := hx.left.symm.trans (h.left.trans hy.left)

theorem Alike.nextAddress (h : x.Alike y) : x.nextAddress = y.nextAddress := by
  rw [Item.nextAddress, Item.nextAddress, h.current, h.dot]

theorem Alike.passed_iff (h : x.Alike y) {g : Address} : x.Passed g ↔ y.Passed g := by
  rw [Passed, Passed, h.current, h.dot]

/-- Finished layers at one address of one tree. -/
theorem alike_of_isPassive (hsel : sel.Sound) (hx : x.Valid sel n) (hy : y.Valid sel n)
    (htree : x.tree = y.tree) (haddress : x.current.address = y.current.address)
    (hpassive : x.isPassive = true) (hpassive' : y.isPassive = true) (hleft : x.left = y.left) :
    x.Alike y := by
  have hcurrent : x.current = y.current :=
    (hsel.checked y.tree hy.tree).eq_of_address_eq (htree ▸ x.current_mem) y.current_mem haddress
  exact ⟨htree, hcurrent, by rw [hx.dot_eq hpassive, hy.dot_eq hpassive', hcurrent], hleft⟩

/-- Finished root layers of one tree. -/
theorem alike_of_isRootLayer (hsel : sel.Sound) (hx : x.Valid sel n) (hy : y.Valid sel n)
    (htree : x.tree = y.tree) (hpassive : x.isPassive = true) (hpassive' : y.isPassive = true)
    (hroot : x.isRootLayer = true) (hroot' : y.isRootLayer = true) (hleft : x.left = y.left) :
    x.Alike y :=
  alike_of_isPassive hsel hx hy htree
    ((isRootLayer_iff.1 hroot).trans (isRootLayer_iff.1 hroot').symm) hpassive hpassive' hleft

/-- The hosts of two joins that end at one place. -/
theorem Alike.hosts [Mul W] {h h' a a' : Item W} {side : Side} (halike : x.Alike y)
    (hagrees : (Chart.joined h a side).Agrees x) (hagrees' : (Chart.joined h' a' side).Agrees y)
    (hleft : h.left = h'.left) : h.Alike h' := by
  cases side <;>
    exact ⟨hagrees.tree.symm.trans (halike.tree.trans hagrees'.tree),
      hagrees.current.symm.trans (halike.current.trans hagrees'.current),
      hagrees.dot.symm.trans (halike.dot.trans hagrees'.dot), hleft⟩

end Item

namespace Chart

variable [Mul W] {sel : Selection W} {starts : SymbolSet} {n : Nat} {c : Chart W}
  {A B : Account} {x y : Item W} {E F : Analysis W}

theorem Recounts.eq_of_account (h : c.Recounts A x E) (h' : c.Recounts A y F) : x = y :=
  eq_of_holds h.holds h'.holds (h.id_eq.symm.trans h'.id_eq)

omit [Mul W] in
/-- One cell, one item. -/
theorem eq_of_agrees (hinv : c.Inv sel starts n) (hx : c.Holds x) (hy : c.Holds y)
    {z w : Item W} (hzx : z.Agrees x) (hwy : w.Agrees y) (hkey : z.key = w.key) : x = y :=
  hinv.filed.eq_of_key_eq (Array.mem_of_getElem? hx) (Array.mem_of_getElem? hy)
    (hzx.key.trans (hkey.trans hwy.key.symm))

/-! ## The last step -/

theorem Recounts.bears (h : c.Recounts A x E) (hdistinct : E.Distinct x.tree)
    {e : Edge (AnchoredTree W)} (he : e ∈ E) (hfirst : e.first = x.tree) : x.Bears A.why e :=
  hdistinct.of_first_eq (h.stemsAre.imp fun _ hs => ⟨hs.first, hs⟩) he hfirst

omit [Mul W] in
theorem site_ne_of_passed {g : Address} (h : x.Passed g) : g ≠ x.current.address := by
  rintro rfl
  obtain ⟨i, rest, hpath, -⟩ := h
  simp at hpath

/-- An auxiliary tree was joined last just if an edge is at the node itself. -/
theorem Recounts.isAdjunction_iff (h : c.Recounts A x E) (hdistinct : E.Distinct x.tree) :
    A.why.isAdjunction = true ↔
      ∃ e ∈ E, e.first = x.tree ∧ e.site = x.current.address := by
  constructor
  · intro hjoin
    cases h with
    | @right _ host aux _ _ _ _ spine _ _ _ _ _ _ _ hagrees =>
        exact ⟨adjunctionEdge host aux spine, by simp, hagrees.tree.symm,
          (congrArg Layer.address hagrees.current).symm⟩
    | @left _ host aux _ _ _ _ spine _ _ _ _ _ _ hagrees =>
        exact ⟨adjunctionEdge host aux spine, by simp, hagrees.tree.symm,
          (congrArg Layer.address hagrees.current).symm⟩
    | _ => cases hjoin
  · rintro ⟨e, he, hfirst, hsite⟩
    rcases (h.bears hdistinct he hfirst).place with hpassed | ⟨-, hjoin, -⟩
    · exact absurd hsite (site_ne_of_passed hpassed)
    · exact hjoin

/-- A node that no left auxiliary tree is joined to has right ones only. -/
theorem Recounts.side?_of_plain (h : c.Recounts A x E) (hdistinct : E.Distinct x.tree)
    (hplain : x.leftAdjoined = false) {e : Edge (AnchoredTree W)} (he : e ∈ E)
    (hfirst : e.first = x.tree) (hsite : e.site = x.current.address) :
    e.second.side? = some .right := by
  rcases (h.bears hdistinct he hfirst).place with hpassed | ⟨-, -, -, hright⟩
  · exact absurd hsite (site_ne_of_passed hpassed)
  · exact hright hplain

theorem Recounts.adjunctionEdge_notMem_of_plain (h : c.Recounts A x E)
    (hdistinct : E.Distinct x.tree) (hplain : x.leftAdjoined = false) (host : Item W)
    {aux : Item W} {label : String} (spine : Address)
    (haux : isFinishedAuxiliary label .left aux = true) (htree : host.tree = x.tree)
    (hcurrent : host.current = x.current) :
    adjunctionEdge host aux spine ∉ E := by
  intro hmem
  have hright := h.side?_of_plain hdistinct hplain hmem htree (congrArg Layer.address hcurrent)
  have hleft := (isFinishedAuxiliary_iff.1 haux).2.2.1
  cases hright.symm.trans hleft

/-- Any other step is told by the entry before the dot. -/
theorem Recounts.passed?_eq (hsel : sel.Sound) (hinv : c.Inv sel starts n)
    (h : c.Recounts A x E) (hplain : A.why.isAdjunction = false) :
    A.why.passed? = if x.dot = 1 then none else (x.current.entry? (x.dot - 1)).map Entry.role := by
  have hmoved {p : Item W} {r : Nat} {e : Entry} (hp : c.Holds p) (hnext : p.next? = some e)
      (hadvances : p.Advances x r) :
      (if x.dot = 1 then none else (x.current.entry? (x.dot - 1)).map Entry.role) =
        some e.role := by
    have hpos := (hinv.valid_of_holds hp).dot_pos
    rw [hadvances.dot, hadvances.current, if_neg (by omega), Nat.add_sub_cancel]
    exact congrArg (Option.map Entry.role) hnext
  cases h with
  | opened _ hdot _ _ => rw [if_pos hdot]; rfl
  | scan _ hp hnext _ hagrees =>
      rw [hmoved hp.holds hnext (hagrees.advances (Item.isActive_of_next? hnext))]
      rfl
  | foot _ hp hnext hagrees =>
      rw [hmoved hp.holds hnext (hagrees.advances (Item.isActive_of_next? hnext))]
      rfl
  | complete _ hp hd hactive _ htree haddress _ hagrees =>
      obtain ⟨-, e, -, hnext⟩ := Item.Valid.next?_of_child hsel (hinv.valid_of_holds hp.holds)
        (hinv.valid_of_holds hd.holds) (congrArg AnchoredTree.id htree.symm) haddress
      rw [hmoved hp.holds hnext (hagrees.advances hactive)]
      rfl
  | substitution _ hp _ hnext _ _ _ hagrees =>
      rw [hmoved hp.holds hnext (hagrees.advances (Item.isActive_of_next? hnext))]
      rfl
  | right => cases hplain
  | left => cases hplain

/-- Accounts of items at one place with the same edges end with the same kind of step. -/
theorem Recounts.same_kind (hsel : sel.Sound) (hinv : c.Inv sel starts n)
    (h : c.Recounts A x E) (h' : c.Recounts B y F) (halike : x.Alike y)
    (hdistinct : E.Distinct x.tree) (hdistinct' : F.Distinct y.tree) (hsame : E.Same F) :
    A.why.isAdjunction = B.why.isAdjunction ∧ A.why.passed? = B.why.passed? := by
  have hjoin : A.why.isAdjunction = B.why.isAdjunction := by
    rw [Bool.eq_iff_iff, h.isAdjunction_iff hdistinct, h'.isAdjunction_iff hdistinct',
      halike.tree, halike.current]
    exact exists_congr fun e => and_congr_left' (hsame e)
  refine ⟨hjoin, ?_⟩
  cases hA : A.why.isAdjunction with
  | true =>
      have hnone {why : Derivation} (hwhy : why.isAdjunction = true) : why.passed? = none := by
        cases why <;> first | rfl | cases hwhy
      rw [hnone hA, hnone (hjoin ▸ hA)]
  | false =>
      rw [h.passed?_eq hsel hinv hA, h'.passed?_eq hsel hinv (hjoin ▸ hA), halike.dot,
        halike.current]

/-! ## Step by step -/

/-- Whether no other account of an item at the same place has the same edges. -/
def Determined (c : Chart W) (A : Account) (x : Item W) (E : Analysis W) : Prop :=
  ∀ B y F, c.Recounts B y F → x.Alike y → E.Distinct x.tree → F.Distinct y.tree →
    E.Same F → A = B

theorem Determined.eq (h : c.Determined A x E) (hx : c.Recounts A x E) (hy : c.Recounts B y F)
    (halike : x.Alike y) (hdistinct : E.Distinct x.tree) (hdistinct' : F.Distinct y.tree)
    (hsame : E.Same F) : A = B ∧ x = y := by
  have haccount : A = B := h B y F hy halike hdistinct hdistinct' hsame
  exact ⟨haccount, (haccount ▸ hx).eq_of_account hy⟩

/-- A step from one item, which ends `k` positions earlier and has the same edges. -/
inductive Moves (c : Chart W) (why : Nat → Derivation) (k : Nat) :
    Account → Item W → Analysis W → Prop where
  | mk {A : Account} {p x : Item W} {E : Analysis W} (hx : c.Holds x) (hp : c.Recounts A p E)
      (hactive : p.isActive = true)
      (hagrees : (p.advanceTo (p.right + k) p.weight).Agrees x) :
      Moves c why k (.mk x.id (why p.id) [A]) x E

theorem Recounts.moves_scan (h : c.Recounts A x E) (hpassed : A.why.passed? = some .terminal) :
    c.Moves .scan 1 A x E := by
  cases h with
  | scan hx hp hnext _ hagrees => exact .mk hx hp (Item.isActive_of_next? hnext) hagrees
  | _ => cases hpassed

theorem Recounts.moves_foot (h : c.Recounts A x E) (hpassed : A.why.passed? = some .foot) :
    c.Moves .foot 0 A x E := by
  cases h with
  | foot hx hp hnext hagrees => exact .mk hx hp (Item.isActive_of_next? hnext) hagrees
  | _ => cases hpassed

section Steps

variable (hsel : sel.Sound) (hinv : c.Inv sel starts n) {p d h a : Item W}

include hsel hinv

theorem determined_opened (hx : c.Holds x) (hdot : x.dot = 1) (hspan : x.left = x.right)
    (hplain : x.leftAdjoined = false) :
    c.Determined (.mk x.id .predicted []) x [] := by
  intro B y F h' halike hdistinct hdistinct' hsame
  have hkind := (Recounts.opened hx hdot hspan hplain).same_kind hsel hinv h' halike hdistinct
    hdistinct' hsame
  cases h' with
  | opened hy hdot' hspan' hplain' =>
      have hlayer : x.layer.val = y.layer.val :=
        Item.layer_eq (hsel.checked x.tree (hinv.valid_of_holds hx).tree) halike.tree
          (congrArg Layer.address halike.current)
      have hkey : x.key = y.key := by
        simp only [Item.key, Item.Key.mk.injEq]
        exact ⟨congrArg AnchoredTree.id halike.tree, hlayer, halike.dot, halike.left,
          by rw [← hspan, ← hspan', halike.left], by rw [hplain, hplain']⟩
      rw [eq_of_agrees hinv hx hy ⟨rfl, rfl⟩ ⟨rfl, rfl⟩ hkey]
  | _ => simp [Account.why, Derivation.isAdjunction, Derivation.passed?] at hkind

theorem Determined.moved {why : Nat → Derivation} (k : Nat) (ih : c.Determined A p E)
    (hx : c.Recounts (.mk x.id (why p.id) [A]) x E) (hp : c.Recounts A p E)
    (hactive : p.isActive = true) (hagrees : (p.advanceTo (p.right + k) p.weight).Agrees x)
    (hmoves : ∀ {B y F}, c.Recounts B y F → B.why.passed? = (why p.id).passed? →
      c.Moves why k B y F) :
    c.Determined (.mk x.id (why p.id) [A]) x E := by
  intro B y F h' halike hdistinct hdistinct' hsame
  obtain ⟨-, hpassed⟩ := hx.same_kind hsel hinv h' halike hdistinct hdistinct' hsame
  obtain ⟨hy, hq, hactive', hagrees'⟩ := hmoves h' hpassed.symm
  have hadvances := hagrees.advances hactive
  have hadvances' := hagrees'.advances hactive'
  obtain ⟨rfl, rfl⟩ := ih.eq hp hq (halike.before hadvances hadvances')
    (hadvances.tree ▸ hdistinct) (hadvances'.tree ▸ hdistinct') hsame
  rw [eq_of_agrees hinv hx.holds hy hagrees hagrees' rfl]

theorem Determined.complete (ihp : c.Determined A p E) (ihd : c.Determined B d F)
    (hx : c.Holds x) (hp : c.Recounts A p E) (hd : c.Recounts B d F)
    (hactive : p.isActive = true) (hpassive : d.isPassive = true)
    (htree : d.tree = p.tree) (haddress : d.current.address = p.nextAddress)
    (hspan : d.left = p.right) (hagrees : (p.advanceTo d.right (p.weight * d.weight)).Agrees x) :
    c.Determined (.mk x.id (.complete p.id d.id) [A, B]) x (E ++ F) := by
  intro C y G h' halike hdistinct hdistinct' hsame
  have hkind := (Recounts.complete hx hp hd hactive hpassive htree haddress hspan hagrees).same_kind
    hsel hinv h' halike hdistinct hdistinct' hsame
  have hadvances := hagrees.advances hactive
  cases h' with
  | complete hy hq hd' hactive' hpassive' htree' haddress' hspan' hagrees' =>
      have hadvances' := hagrees'.advances hactive'
      have hbefore := halike.before hadvances hadvances'
      rw [hadvances.tree] at hdistinct
      rw [hadvances'.tree] at hdistinct'
      -- the parts are told apart by whether the parent has passed the place of the stem
      obtain ⟨hfirst, hlast⟩ := hdistinct.split (P := fun s => p.Passed s.site) hsame
        (hp.stemsAre.imp fun s hs => ⟨hs.first, hs.passed hactive⟩)
        (hd.stemsAre.imp fun s hs => ⟨hs.first.trans htree,
          Item.not_passed_of_next (hs.exists_below haddress).choose_spec⟩)
        (hq.stemsAre.imp fun s hs => ⟨hs.first.trans hbefore.tree.symm,
          hbefore.passed_iff.2 (hs.passed hactive')⟩)
        (hd'.stemsAre.imp fun s hs => ⟨hs.first.trans (htree'.trans hbefore.tree.symm),
          fun hpassed => Item.not_passed_of_next (hs.exists_below haddress').choose_spec
            (hbefore.passed_iff.1 hpassed)⟩)
      obtain ⟨rfl, rfl⟩ := ihp.eq hp hq hbefore hdistinct.left hdistinct'.left hfirst
      have halike' := Item.alike_of_isPassive hsel (hinv.valid_of_holds hd.holds)
        (hinv.valid_of_holds hd'.holds) (htree.trans htree'.symm) (haddress.trans haddress'.symm)
        hpassive hpassive' (hspan.trans hspan'.symm)
      obtain ⟨rfl, rfl⟩ := ihd.eq hd hd' halike' (htree ▸ hdistinct.right)
        (htree' ▸ hdistinct'.right) hlast
      rw [eq_of_agrees hinv hx hy hagrees hagrees' rfl]
  | _ => simp [Account.why, Derivation.isAdjunction, Derivation.passed?] at hkind

theorem Determined.substitution (ihp : c.Determined A p E) (ihd : c.Determined B d F)
    (hx : c.Holds x) (hp : c.Recounts A p E) (hd : c.Recounts B d F)
    (hnext : p.next? = some ⟨.substitution, d.tree.root⟩) (hpassive : d.isPassive = true)
    (hroot : d.isRootLayer = true) (hspan : d.left = p.right)
    (hagrees : (p.advanceTo d.right (p.weight * d.weight)).Agrees x) :
    c.Determined (.mk x.id (.substitution p.id d.id) [A, B]) x
      (E ++ F ++ [substitutionEdge p d]) := by
  intro C y G h' halike hdistinct hdistinct' hsame
  have hkind := (Recounts.substitution hx hp hd hnext hpassive hroot hspan hagrees).same_kind
    hsel hinv h' halike hdistinct hdistinct' hsame
  have hadvances := hagrees.advances (Item.isActive_of_next? hnext)
  cases h' with
  | @substitution _ q d' _ _ E' F' hy hq hd' hnext' hpassive' hroot' hspan' hagrees' =>
      have hactive' := Item.isActive_of_next? hnext'
      have hadvances' := hagrees'.advances hactive'
      have hbefore := halike.before hadvances hadvances'
      rw [List.append_assoc, hadvances.tree] at hdistinct
      rw [List.append_assoc, hadvances'.tree, ← hbefore.tree] at hdistinct'
      rw [List.append_assoc, List.append_assoc] at hsame
      have hstems := hp.stemsAre.imp fun s hs => hs.first
      have hstems' := hq.stemsAre.imp fun s hs => hs.first.trans hbefore.tree.symm
      have hbelow := hd.stemsAre.imp fun s hs => hs.first
      have hbelow' := hd'.stemsAre.imp fun s hs => hs.first
      have hlast : substitutionEdge p d = substitutionEdge q d' := by
        refine hdistinct.last_eq hdistinct' hsame rfl hbefore.tree.symm hbelow hbelow' ?_
        rintro ⟨hmem, -⟩
        -- the leaf stands behind the dot, so nothing was put in there before
        have hborne := hq.bears (hbefore.tree ▸ hdistinct'.left) hmem hbefore.tree
        have hsite : (substitutionEdge p d).site.path = q.nextAddress.path ++ [] := by
          rw [List.append_nil, ← hbefore.nextAddress]
          rfl
        exact Item.not_passed_of_next hsite (hborne.passed hactive')
      have htree : d.tree = d'.tree := congrArg Edge.second hlast
      rw [← hlast] at hdistinct' hsame
      obtain ⟨hfirst, hparts⟩ := hdistinct.split_attached hdistinct' hsame rfl hstems hbelow hstems'
        (hbelow'.imp fun s hs => hs.trans htree.symm)
      obtain ⟨rfl, rfl⟩ := ihp.eq hp hq hbefore hdistinct.left
        (hbefore.tree ▸ hdistinct'.left) hfirst
      have halike' := Item.alike_of_isRootLayer hsel (hinv.valid_of_holds hd.holds)
        (hinv.valid_of_holds hd'.holds) htree hpassive hpassive' hroot hroot'
        (hspan.trans hspan'.symm)
      obtain ⟨rfl, rfl⟩ := ihd.eq hd hd' halike' hdistinct.right.attached
        (htree ▸ hdistinct'.right.attached) hparts
      rw [eq_of_agrees hinv hx hy hagrees hagrees' rfl]
  | _ => simp [Account.why, Derivation.isAdjunction, Derivation.passed?] at hkind

end Steps

section Joined

variable (hsel : sel.Sound) (hanchored : sel.Anchored) (hinv : c.Inv sel starts n)
  {C D : Account} {h a h' a' : Item W} {E' F' : Analysis W} {spine spine' : Address}

include hsel hanchored hinv

/-- The windows of the trees that an account puts in lie in its span. -/
theorem Recounts.windows_between (hx : c.Recounts A x E) {e : Edge (AnchoredTree W)} (he : e ∈ E) :
    ∀ pos ∈ e.second.window, x.left ≤ pos ∧ pos < x.right := by
  obtain ⟨own, hown⟩ := hx.exists_hasRead hsel hanchored hinv
  intro pos hpos
  exact hown.spread.between pos (List.mem_append_right _ (List.mem_flatMap.2 ⟨e, he, hpos⟩))

/-- The window of a finished tree lies in its span, and has a position. -/
theorem Recounts.exists_window_between (hx : c.Recounts A x E) (hpassive : x.isPassive = true)
    (hroot : x.isRootLayer = true) : ∃ pos ∈ x.tree.window, x.left ≤ pos ∧ pos < x.right := by
  have htree := (hinv.valid_of_holds hx.holds).tree
  obtain ⟨own, hown⟩ := hx.exists_hasRead hsel hanchored hinv
  obtain ⟨pos, hpos⟩ := AnchoredTree.exists_mem_window (hanchored x.tree htree).1
  have hspread := hown.spread_window hsel hanchored htree hpassive hroot
  exact ⟨pos, hpos, hspread.between pos (List.mem_append_left _ hpos)⟩

/--
Of two auxiliary trees at one side of a node, one stands farther out, so they have not come
up in both orders.
-/
theorem not_both_orders (hh : c.Recounts A h E) (ha : c.Recounts B a F)
    (hh' : c.Recounts C h' E') (ha' : c.Recounts D a' F') (hpassive : a.isPassive = true)
    (hroot : a.isRootLayer = true) (hpassive' : a'.isPassive = true)
    (hroot' : a'.isRootLayer = true)
    (hspans : (a.left = h.right ∧ a'.left = h'.right) ∨ (a.right = h.left ∧ a'.right = h'.left)) :
    ¬ (adjunctionEdge h a spine ∈ E' ∧ adjunctionEdge h' a' spine' ∈ E) := by
  rintro ⟨hmem, hmem'⟩
  obtain ⟨pos, hpos, hbetween⟩ :=
    ha.exists_window_between hsel hanchored hinv hpassive hroot
  obtain ⟨pos', hpos', hbetween'⟩ :=
    ha'.exists_window_between hsel hanchored hinv hpassive' hroot'
  have hinner := hh'.windows_between hsel hanchored hinv hmem pos hpos
  have hinner' := hh.windows_between hsel hanchored hinv hmem' pos' hpos'
  omega

/-- Two joins with the same edges join the same tree to the same host. -/
theorem joined_parts (hh : c.Recounts A h E) (ha : c.Recounts B a F)
    (hh' : c.Recounts C h' E') (ha' : c.Recounts D a' F') (hpassive : a.isPassive = true)
    (hroot : a.isRootLayer = true) (hpassive' : a'.isPassive = true)
    (hroot' : a'.isRootLayer = true)
    (hspans : (a.left = h.right ∧ a'.left = h'.right) ∨ (a.right = h.left ∧ a'.right = h'.left))
    (htree : h.tree = h'.tree)
    (hdistinct : Analysis.Distinct (E ++ (F ++ [adjunctionEdge h a spine])) h.tree)
    (hdistinct' : Analysis.Distinct (E' ++ (F' ++ [adjunctionEdge h' a' spine'])) h'.tree)
    (hsame : Analysis.Same (E ++ (F ++ [adjunctionEdge h a spine]))
      (E' ++ (F' ++ [adjunctionEdge h' a' spine']))) :
    a.tree = a'.tree ∧ E.Same E' ∧ F.Same F' := by
  rw [← htree] at hdistinct'
  have hbelow := ha.stemsAre.imp fun s hs => hs.first
  have hbelow' := ha'.stemsAre.imp fun s hs => hs.first
  have hlast : adjunctionEdge h a spine = adjunctionEdge h' a' spine' :=
    hdistinct.last_eq hdistinct' hsame rfl htree.symm hbelow hbelow'
      (not_both_orders hsel hanchored hinv hh ha hh' ha' hpassive hroot hpassive' hroot' hspans)
  have hsecond : a.tree = a'.tree := congrArg Edge.second hlast
  rw [← hlast] at hdistinct' hsame
  exact ⟨hsecond, hdistinct.split_attached hdistinct' hsame rfl
    (hh.stemsAre.imp fun s hs => hs.first) hbelow
    (hh'.stemsAre.imp fun s hs => hs.first.trans htree.symm)
    (hbelow'.imp fun s hs => hs.trans hsecond.symm)⟩

theorem Determined.right (ihh : c.Determined A h E) (iha : c.Determined B a F)
    (hx : c.Holds x) (hh : c.Recounts A h E) (ha : c.Recounts B a F)
    (hhost : isHost a.tree.root h = true) (hplain : h.leftAdjoined = false)
    (haux : isFinishedAuxiliary a.tree.root .right a = true) (hspan : a.left = h.right)
    (hagrees : (joined h a .right).Agrees x) :
    c.Determined (.mk x.id (.adjunction h.id a.id) [A, B]) x
      (E ++ F ++ [adjunctionEdge h a spine]) := by
  intro C y G h' halike hdistinct hdistinct' hsame
  have hrecounts := Recounts.right spine hx hh ha hhost hplain haux hspan hagrees
  have hkind := hrecounts.same_kind hsel hinv h' halike hdistinct hdistinct' hsame
  have htree : x.tree = h.tree := hagrees.tree
  cases h' with
  | @right _ host aux _ _ E' F' spine' hy hh' ha' hhost' hplain' haux' hspan' hagrees' =>
      have htree' : y.tree = host.tree := hagrees'.tree
      have hhosts := halike.hosts hagrees hagrees'
        (hagrees.left.symm.trans (halike.left.trans hagrees'.left))
      obtain ⟨hpassive, hroot, -, -⟩ := isFinishedAuxiliary_iff.1 haux
      obtain ⟨hpassive', hroot', -, -⟩ := isFinishedAuxiliary_iff.1 haux'
      rw [List.append_assoc, htree] at hdistinct
      rw [List.append_assoc, htree'] at hdistinct'
      rw [List.append_assoc, List.append_assoc] at hsame
      obtain ⟨hsecond, hfirst, hlast⟩ := joined_parts hsel hanchored hinv hh ha hh' ha' hpassive
        hroot hpassive' hroot' (Or.inl ⟨hspan, hspan'⟩) hhosts.tree hdistinct hdistinct' hsame
      obtain ⟨rfl, rfl⟩ := ihh.eq hh hh' hhosts hdistinct.left hdistinct'.left hfirst
      have hauxes := Item.alike_of_isRootLayer hsel (hinv.valid_of_holds ha.holds)
        (hinv.valid_of_holds ha'.holds) hsecond hpassive hpassive' hroot hroot'
        (hspan.trans hspan'.symm)
      obtain ⟨rfl, rfl⟩ := iha.eq ha ha' hauxes hdistinct.right.attached
        hdistinct'.right.attached hlast
      rw [eq_of_agrees hinv hx hy hagrees hagrees' rfl]
  | @left _ host _ _ _ _ _ spine' _ _ _ _ haux' _ hagrees' =>
      have hmem := hrecounts.adjunctionEdge_notMem_of_plain hdistinct
        (hagrees.leftAdjoined.trans hplain) host spine' haux'
        (hagrees'.tree.symm.trans halike.tree.symm)
        (hagrees'.current.symm.trans halike.current.symm)
      exact absurd ((hsame _).2 (by simp)) hmem
  | _ => simp [Account.why, Derivation.isAdjunction, Derivation.passed?] at hkind

theorem Determined.left (ihh : c.Determined A h E) (iha : c.Determined B a F)
    (hx : c.Holds x) (hh : c.Recounts A h E) (ha : c.Recounts B a F)
    (hhost : isHost a.tree.root h = true)
    (haux : isFinishedAuxiliary a.tree.root .left a = true) (hspan : a.right = h.left)
    (hagrees : (joined h a .left).Agrees x) :
    c.Determined (.mk x.id (.adjunction h.id a.id) [A, B]) x
      (E ++ F ++ [adjunctionEdge h a spine]) := by
  intro C y G h' halike hdistinct hdistinct' hsame
  have hrecounts := Recounts.left spine hx hh ha hhost haux hspan hagrees
  have hkind := hrecounts.same_kind hsel hinv h' halike hdistinct hdistinct' hsame
  have htree : x.tree = h.tree := hagrees.tree
  cases h' with
  | @left _ host aux _ _ E' F' spine' hy hh' ha' hhost' haux' hspan' hagrees' =>
      have htree' : y.tree = host.tree := hagrees'.tree
      obtain ⟨hpassive, hroot, -, -⟩ := isFinishedAuxiliary_iff.1 haux
      obtain ⟨hpassive', hroot', -, -⟩ := isFinishedAuxiliary_iff.1 haux'
      rw [List.append_assoc, htree] at hdistinct
      rw [List.append_assoc, htree'] at hdistinct'
      rw [List.append_assoc, List.append_assoc] at hsame
      obtain ⟨hsecond, hfirst, hlast⟩ := joined_parts hsel hanchored hinv hh ha hh' ha' hpassive
        hroot hpassive' hroot' (Or.inr ⟨hspan, hspan'⟩)
        (htree.symm.trans (halike.tree.trans htree')) hdistinct hdistinct' hsame
      -- the left end is that of the auxiliary tree, so it comes first
      have hauxes := Item.alike_of_isRootLayer hsel (hinv.valid_of_holds ha.holds)
        (hinv.valid_of_holds ha'.holds) hsecond hpassive hpassive' hroot hroot'
        (hagrees.left.symm.trans (halike.left.trans hagrees'.left))
      obtain ⟨rfl, rfl⟩ := iha.eq ha ha' hauxes hdistinct.right.attached
        hdistinct'.right.attached hlast
      have hhosts := halike.hosts hagrees hagrees' (hspan.symm.trans hspan')
      obtain ⟨rfl, rfl⟩ := ihh.eq hh hh' hhosts hdistinct.left hdistinct'.left hfirst
      rw [eq_of_agrees hinv hx hy hagrees hagrees' rfl]
  | right spine' hy hh' ha' hhost' hplain' haux' hspan' hagrees' =>
      have hrecounts' := Recounts.right spine' hy hh' ha' hhost' hplain' haux' hspan' hagrees'
      have hmem := hrecounts'.adjunctionEdge_notMem_of_plain hdistinct'
        (hagrees'.leftAdjoined.trans hplain') h spine haux (htree.symm.trans halike.tree)
        (hagrees.current.symm.trans halike.current)
      exact absurd ((hsame _).1 (by simp)) hmem
  | _ => simp [Account.why, Derivation.isAdjunction, Derivation.passed?] at hkind

/-- The edges of an account tell it from all others of items at the same place. -/
theorem Recounts.determined (hx : c.Recounts A x E) : c.Determined A x E := by
  induction hx with
  | opened hx hdot hspan hplain => exact determined_opened hsel hinv hx hdot hspan hplain
  | scan hx hp hnext hread hagrees ih =>
      exact ih.moved hsel hinv 1 (.scan hx hp hnext hread hagrees) hp (Item.isActive_of_next? hnext)
        hagrees fun h => h.moves_scan
  | foot hx hp hnext hagrees ih =>
      exact ih.moved hsel hinv 0 (.foot hx hp hnext hagrees) hp (Item.isActive_of_next? hnext)
        hagrees fun h => h.moves_foot
  | complete hx hp hd hactive hpassive htree haddress hspan hagrees ihp ihd =>
      exact ihp.complete hsel hinv ihd hx hp hd hactive hpassive htree haddress hspan hagrees
  | substitution hx hp hd hnext hpassive hroot hspan hagrees ihp ihd =>
      exact ihp.substitution hsel hinv ihd hx hp hd hnext hpassive hroot hspan hagrees
  | right spine hx hh ha hhost hplain haux hspan hagrees ihh iha =>
      exact ihh.right hsel hanchored hinv iha hx hh ha hhost hplain haux hspan hagrees
  | left spine hx hh ha hhost haux hspan hagrees ihh iha =>
      exact ihh.left hsel hanchored hinv iha hx hh ha hhost haux hspan hagrees

end Joined

end Chart

end TreeInsertion
