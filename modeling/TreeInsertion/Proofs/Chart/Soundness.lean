import TreeInsertion.Proofs.Chart.Licence
import TreeInsertion.Proofs.Reading

/-!
# Items stand for readings

In every chart that the analysis can reach, an item reads its span: up to its dot,
and with the auxiliary trees that have been joined to it.
-/

namespace TreeInsertion

variable {W : Type}

/--
What an item stands for.  Without left auxiliary trees, its layer is read up to the dot, and
right auxiliary trees stand behind that if the layer is a finished host.  A left auxiliary
tree stands before a node that is read in full.
-/
structure Item.Means (sel : Selection W) (input : List String) (x : Item W) : Prop where
  plain : x.leftAdjoined = false → ∃ j,
    Reading.BeforeDot sel input AnchoredTree.MayStart x.tree x.current x.dot x.left j ∧
      (j ≠ x.right → x.isPassive = true ∧ x.isAdjunctionSite = true) ∧
        ∃ e, x.current.lhs? = some e ∧
          Reading.Row sel input AnchoredTree.MayStart .right e.label j x.right
  start : x.leftAdjoined = false → x.isRootLayer = true → x.tree.MayStart x.left
  adjoined : x.leftAdjoined = true → ∃ u ∈ sel.trees, ∃ m j,
    u.side? = some .left ∧ u.rule.layers.head? = some m ∧ x.current.hasLabel u.root = true ∧
      Reading.Bare sel input AnchoredTree.MayStart u m x.left j ∧
        Reading.Full sel input AnchoredTree.MayStart x.tree x.current j x.right

namespace Item

variable {sel : Selection W} {input : List String} {n : Nat} {x : Item W}

theorem Means.refiled (h : x.Means sel input) (id : Nat) (derivations : List Derivation) :
    ({ x with id := id, derivations := derivations } : Item W).Means sel input :=
  ⟨h.plain, h.start, h.adjoined⟩

/-- An item that no left auxiliary tree is joined to. -/
theorem Means.of_plain {j : Nat} {e : Entry} (hplain : x.leftAdjoined = false)
    (hstart : x.isRootLayer = true → x.tree.MayStart x.left)
    (hbefore : Reading.BeforeDot sel input AnchoredTree.MayStart x.tree x.current x.dot x.left j)
    (hj : j ≠ x.right → x.isPassive = true ∧ x.isAdjunctionSite = true)
    (hlhs : x.current.lhs? = some e)
    (hrow : Reading.Row sel input AnchoredTree.MayStart .right e.label j x.right) :
    x.Means sel input where
  plain _ := ⟨j, hbefore, hj, e, hlhs, hrow⟩
  start _ := hstart
  adjoined hadjoined := by
    rw [hplain] at hadjoined
    cases hadjoined

/-- An active item reads its span up to the dot. -/
theorem Means.beforeDot (h : x.Means sel input) (hv : x.Valid sel n) (hactive : x.isActive = true) :
    Reading.BeforeDot sel input AnchoredTree.MayStart x.tree x.current x.dot x.left x.right := by
  obtain ⟨j, hbefore, hj, -⟩ := h.plain (hv.plain_of_isActive hactive)
  by_cases heq : j = x.right
  · exact heq ▸ hbefore
  · have hpassive := (hj heq).1
    simp [isPassive, hactive] at hpassive

theorem Valid.dot_eq (hv : x.Valid sel n) (hpassive : x.isPassive = true) :
    x.dot = x.current.length :=
  Nat.le_antisymm hv.dot_le (isPassive_iff.1 hpassive)

/-- A finished host that no left auxiliary tree is joined to reads its layer and right ones. -/
theorem Means.bare_row (h : x.Means sel input) (hv : x.Valid sel n) (hpassive : x.isPassive = true)
    (hplain : x.leftAdjoined = false) : ∃ j e,
      Reading.Bare sel input AnchoredTree.MayStart x.tree x.current x.left j ∧
        (j ≠ x.right → x.isAdjunctionSite = true) ∧ x.current.lhs? = some e ∧
          Reading.Row sel input AnchoredTree.MayStart .right e.label j x.right := by
  obtain ⟨j, hbefore, hj, e, hlhs, hrow⟩ := h.plain hplain
  rw [hv.dot_eq hpassive] at hbefore
  exact ⟨j, e, .mk (fun hroot => h.start hplain (isRootLayer_iff.2 hroot)) hbefore,
    fun hne => (hj hne).2, hlhs, hrow⟩

/-- A finished node reads its span. -/
theorem Means.full (h : x.Means sel input) (hv : x.Valid sel n) (hpassive : x.isPassive = true) :
    Reading.Full sel input AnchoredTree.MayStart x.tree x.current x.left x.right := by
  cases hadjoined : x.leftAdjoined with
  | true =>
      obtain ⟨u, hu, m, j, hside, hroot, hlabel, htree, hnode⟩ := h.adjoined hadjoined
      exact hnode.behind hu hside hroot hlabel htree
  | false =>
      obtain ⟨j, e, hbare, -, hlhs, hrow⟩ := h.bare_row hv hpassive hadjoined
      exact .mk hlhs .nil hbare hrow

/-- A finished auxiliary tree reads its span by itself. -/
theorem Means.bare (h : x.Means sel input) (hv : x.Valid sel n) (hpassive : x.isPassive = true)
    (hsite : x.isAdjunctionSite = false) :
    Reading.Bare sel input AnchoredTree.MayStart x.tree x.current x.left x.right := by
  have hplain : x.leftAdjoined = false := by
    refine Bool.eq_false_iff.2 fun hadjoined => ?_
    rw [(hv.adjoined hadjoined).2] at hsite
    cases hsite
  obtain ⟨j, e, hbare, hj, -⟩ := h.bare_row hv hpassive hplain
  by_cases heq : j = x.right
  · exact heq ▸ hbare
  · rw [hj heq] at hsite
    cases hsite

/-- The layer read one entry further. -/
theorem Means.advanceTo (hv : x.Valid sel n) (hsel : sel.Sound) (h : x.Means sel input)
    (hactive : x.isActive = true) {right : Nat} (weight : W)
    (hread : Reading.BeforeDot sel input AnchoredTree.MayStart x.tree x.current (x.dot + 1)
      x.left right) : (x.advanceTo right weight).Means sel input := by
  have hplain := hv.plain_of_isActive hactive
  obtain ⟨e, hlhs⟩ := (hsel.checked x.tree hv.tree).exists_lhs x.current_mem
  rw [advanceTo_eq hactive]
  exact .of_plain hplain (h.start hplain) hread (fun hne => absurd rfl hne) hlhs .nil

/-- An item that is opened has read nothing yet. -/
theorem Opens.means [One W] (h : x.Opens sel n) (hsel : sel.Sound) : x.Means sel input := by
  obtain ⟨e, hlhs⟩ := (hsel.checked x.tree h.tree).exists_lhs x.current_mem
  refine .of_plain h.plain h.early ?_ (fun hne => absurd h.span hne) hlhs ?_
  · rw [h.dot]
    exact .start
  · rw [h.span]
    exact .nil

end Item

namespace Chart

variable [One W] [Mul W] {sel : Selection W} {starts : SymbolSet} {input : List String}

omit [One W] in
/-- A step from items that stand for readings concludes one that does. -/
theorem Step.means (hsel : sel.Sound) {A : Item W → Prop} {x : Item W} {why : Derivation}
    (h : Step input A x why) (hvalid : ∀ y, A y → y.Valid sel input.length)
    (hmeans : ∀ y, A y → y.Means sel input) : x.Means sel input := by
  cases h with
  | @scan x word hx hnext hread hword =>
      have hactive := Item.isActive_of_next? hnext
      have hbefore := (hmeans x hx).beforeDot (hvalid x hx) hactive
      exact (hmeans x hx).advanceTo (hvalid x hx) hsel hactive _
        (.word hbefore hnext hread hword)
  | @foot x label hx hnext =>
      have hactive := Item.isActive_of_next? hnext
      have hbefore := (hmeans x hx).beforeDot (hvalid x hx) hactive
      exact (hmeans x hx).advanceTo (hvalid x hx) hsel hactive _ (.foot hbefore hnext)
  | @complete p d hp hd hactive hpassive htree haddress hspan =>
      have hvp := hvalid p hp
      have hvd := hvalid d hd
      have hbefore := (hmeans p hp).beforeDot hvp hactive
      have hfull := (hmeans d hd).full hvd hpassive
      obtain ⟨-, e, -, hnext⟩ := hvp.next?_of_child hsel hvd htree.symm haddress
      have hlayer : p.tree.rule.layer? p.nextAddress = some d.current := by
        rw [← haddress, hsel.eq_of_id_eq hvp.tree hvd.tree htree.symm]
        exact (hsel.checked d.tree hvd.tree).layer?_address d.current_mem
      rw [hspan, ← hsel.eq_of_id_eq hvp.tree hvd.tree htree.symm] at hfull
      exact (hmeans p hp).advanceTo hvp hsel hactive _ (.inner hbefore hnext hlayer hfull)
  | @substitution p d hp hd hnext hpassive hroot hinitial hother hspan =>
      have hvp := hvalid p hp
      have hvd := hvalid d hd
      have hactive := Item.isActive_of_next? hnext
      have hbefore := (hmeans p hp).beforeDot hvp hactive
      have hfull := (hmeans d hd).full hvd hpassive
      rw [hspan] at hfull
      exact (hmeans p hp).advanceTo hvp hsel hactive _ (.site hbefore hnext hvd.tree hinitial
        hother ((Item.isRootLayer_iff_head? hsel hvd.tree).1 hroot) hfull)
  | @right h a hh ha hhost hplain haux hspan =>
      have hvh := hvalid h hh
      have hva := hvalid a ha
      obtain ⟨hpassive, hsite, hlabel⟩ := isHost_iff.1 hhost
      obtain ⟨hpassive', hroot, hside, -⟩ := isFinishedAuxiliary_iff.1 haux
      obtain ⟨j, hbefore, -, e, hlhs, hrow⟩ := (hmeans h hh).plain hplain
      obtain ⟨e', hlhs', hlabel'⟩ := Layer.hasLabel_iff.1 hlabel
      rw [hlhs] at hlhs'
      cases hlhs'
      have hbare := (hmeans a ha).bare hva hpassive' (isAdjunctionSite_of_isFinishedAuxiliary haux)
      have hlast : Reading.Row sel input AnchoredTree.MayStart .right a.tree.root a.left a.right :=
        .cons hva.tree hside ((Item.isRootLayer_iff_head? hsel hva.tree).1 hroot) hbare .nil
      rw [hspan, ← hlabel'] at hlast
      exact .of_plain hplain ((hmeans h hh).start hplain) hbefore (fun _ => ⟨hpassive, hsite⟩) hlhs
        (hrow.append hlast)
  | @left h a hh ha hhost haux hspan =>
      have hvh := hvalid h hh
      have hva := hvalid a ha
      obtain ⟨hpassive, hsite, hlabel⟩ := isHost_iff.1 hhost
      obtain ⟨hpassive', hroot, hside, -⟩ := isFinishedAuxiliary_iff.1 haux
      have hbare := (hmeans a ha).bare hva hpassive' (isAdjunctionSite_of_isFinishedAuxiliary haux)
      have hfull := (hmeans h hh).full hvh hpassive
      rw [← hspan] at hfull
      have hhead := (Item.isRootLayer_iff_head? hsel hva.tree).1 hroot
      refine ⟨?_, ?_, fun _ => ⟨a.tree, hva.tree, a.current, a.right, hside, hhead, hlabel, hbare,
        hfull⟩⟩
      · intro hplain
        cases (show true = false from hplain)
      · intro hplain
        cases (show true = false from hplain)

theorem Reached.means (hsel : sel.Sound) {c : Chart W} (hc : Reached sel starts input c) :
    ∀ x ∈ c.items, x.Means sel input := by
  induction hc with
  | empty => simp [Chart.empty]
  | @apply c a hc ha ih =>
      have hinv := hc.inv hsel
      cases a with
      | note d => exact ih
      | add x why =>
          have hrefiled (y : Item W) (id : Nat) (derivations : List Derivation)
              (hy : y.Means sel input) := hy.refiled id derivations
          have hx : x.Means sel input := by
            rcases ha with ⟨-, hopens⟩ | hstep
            · exact hopens.means hsel
            · exact hstep.means hsel (fun y => hinv.valid_of_has)
                fun y hy => hy.of_forall_mem hrefiled ih
          exact hinv.filed.forall_mem_add why hrefiled ih hx

theorem Reached.means_of_has (hsel : sel.Sound) {c : Chart W} (hc : Reached sel starts input c)
    {x : Item W} (hx : c.Has x) : x.Means sel input :=
  hx.of_forall_mem (fun _ id derivations hy => hy.refiled id derivations) (hc.means hsel)

end Chart

end TreeInsertion
