import TreeInsertion.Proofs.Chart.Schedule

/-!
# Strict look-ups

The analysis looks up sets, items and layers by their numbers, and takes an item to be
active or finished when its turn comes.  Here a look-up that misses is a fault, as is an
item of the wrong kind or an analysis cut short, and no analysis has one.
-/

namespace TreeInsertion

namespace Chart

namespace Strict

variable {W : Type}

inductive Fault where
  | noSet (pos : Nat)
  | noItem (id : Nat)
  | noLayer (tree layer : Nat)
  /-- A finished item where an active one is due. -/
  | finished (id : Nat)
  /-- An active item where a finished one is due. -/
  | active (id : Nat)
  /-- Items are left at the position when the rounds are used up. -/
  | cutShort (pos : Nat)
deriving DecidableEq, Repr

/-! ## Look-ups -/

def idsAt (c : Chart W) (k : Nat) : Except Fault (List Nat) :=
  match c.sets[k]? with
  | some ids => .ok ids.toList
  | none => .error (.noSet k)

def item (c : Chart W) (id : Nat) : Except Fault (Item W) :=
  match c.items[id]? with
  | some x => .ok x
  | none => .error (.noItem id)

def itemsAt (c : Chart W) (k : Nat) : Except Fault (List (Item W)) := do
  (← idsAt c k).mapM (item c)

/-- A cell may be free, but the item that the index names has to be there. -/
def find? (c : Chart W) (key : Item.Key) : Except Fault (Option (Item W)) :=
  match c.index[key]? with
  | none => .ok none
  | some id => do return some (← item c id)

def layerOf (t : AnchoredTree W) (i : Nat) : Except Fault (Fin t.rule.layers.length) :=
  if h : i < t.rule.layers.length then .ok ⟨i, h⟩ else .error (.noLayer t.id i)

def needActive (x : Item W) : Except Fault Unit :=
  if x.isActive then .ok () else .error (.finished x.id)

def needPassive (x : Item W) : Except Fault Unit :=
  if x.isPassive then .ok () else .error (.active x.id)

/-! ## Actions -/

/-- A new item needs a set, and the item of a taken cell has to be there. -/
def apply (c : Chart W) : Action W → Except Fault (Chart W)
  | .note d => .ok (c.apply (.note d))
  | .add x why =>
      match c.index[x.key]? with
      | some id => do
          let _ ← item c id
          return c.add x why
      | none => do
          let _ ← idsAt c x.right
          return c.add x why

abbrev Phase (W : Type) :=
  Chart W → Except Fault (List (Action W))

/-- A phase that looks up nothing. -/
def total (phase : Chart.Phase W) : Phase W := fun c =>
  .ok (phase c)

def run (c : Chart W) (phase : Phase W) : Except Fault (Chart W) := do
  (← phase c).foldlM apply c

/-! ## Demands -/

def openRoots (trees : List (AnchoredTree W)) (pos : Nat) : Except Fault (List (Action W)) :=
  (trees.filter fun t => pos ≤ t.anchorPos).mapM fun t => do
    return .add (Item.opened t (← layerOf t 0) pos t.rule.weight) .predicted

def openAuxiliary (label : String) (pos : Nat) (side : Side) : Phase W := fun c =>
  openRoots ((c.selection.auxiliary label).filter fun t => t.side? == some side) pos

def openReason [One W] (label : String) (pos : Nat) (reason : Reason W) : Phase W := fun c =>
  match reason with
  | .inner t i => .ok [.add (Item.opened t i pos One.one) .predicted]
  | .site => openRoots (c.selection.initial label) pos

def demand [One W] (label : String) (pos : Nat) (reason : Reason W) : Phase W := fun c =>
  let known := c.reasonsAt pos label
  if known.any reason.same then .ok []
  else do
    let asked ← openReason label pos reason c
    let left ← if known.isEmpty then openAuxiliary label pos .left c else .ok []
    return .note ⟨pos, label, reason⟩ :: asked ++ left

/-! ## Active items -/

def completeEmpty [Mul W] (x : Item W) (i : Fin x.tree.rule.layers.length) : Phase W := fun c => do
  let length := (x.tree.rule.layers.get i).length
  let child? ← find? c ⟨x.tree.id, i, length, x.right, x.right, false⟩
  return child?.toList.map fun child =>
    .add (x.advanceTo child.right (x.weight * child.weight)) (.complete x.id child.id)

def demandInner [One W] [Mul W] (x : Item W) (label : String) :
    Except Fault (List (Phase W)) :=
  match x.tree.rule.indexOf? x.nextAddress with
  | none => .ok []
  | some i => do
      let layer ← layerOf x.tree i
      return [demand label x.right (.inner x.tree layer), completeEmpty x layer]

/-! ## Finished items -/

def fillParents [Mul W] (x : Item W) : Phase W := fun c => do
  let parents := (← itemsAt c x.left).filter fun p =>
    p.tree.id == x.tree.id && p.isAbove x && some p.dot == x.current.address.last?
  return parents.map fun p =>
    .add (p.advanceTo x.right (p.weight * x.weight)) (.complete p.id x.id)

def fillSites [Mul W] (x : Item W) : Phase W := fun c => do
  let parents := (← itemsAt c x.left).filter fun p =>
    p.tree.id != x.tree.id && p.next? == some ⟨.substitution, x.tree.root⟩
  return parents.map fun p =>
    .add (p.advanceTo x.right (p.weight * x.weight)) (.substitution p.id x.id)

def joinToHost [Mul W] (host : Item W) : List (Phase W) :=
  match host.current.lhs? with
  | none => []
  | some lhs =>
      [fun c => if host.leftAdjoined then .ok [] else openAuxiliary lhs.label host.right .right c,
       fun c => do
        return ((← itemsAt c host.left).filter (isFinishedAuxiliary lhs.label .left)).map
          fun aux => join host aux .left]

def joinToHosts [One W] [Mul W] (c : Chart W) (aux : Item W) : List (Phase W) :=
  let label := aux.tree.root
  match aux.tree.side? with
  | none => []
  | some .right =>
      [fun c => do
        return ((← itemsAt c aux.left).filter fun h => isHost label h && !h.leftAdjoined).map
          fun h => join h aux .right]
  | some .left =>
      (c.reasonsAt aux.left label).map (demand label aux.right) ++
        [fun c => do
          return ((← itemsAt c aux.right).filter fun h =>
            isHost label h && h.left == aux.right).map fun h => join h aux .left]

def finish [One W] [Mul W] (c : Chart W) (x : Item W) : List (Phase W) :=
  let fill := if !x.isRootLayer then [fillParents x]
    else if x.tree.isInitial then [fillSites x]
    else []
  fill ++ (if x.isAdjunctionSite then joinToHost x else joinToHosts c x)

/-! ## All items -/

def phases [One W] [Mul W] (input : List String) (c : Chart W) (x : Item W) :
    Except Fault (List (Phase W)) :=
  match x.next? with
  | none => do
      needPassive x
      return finish c x
  | some e =>
      match e.role with
      | .terminal => do
          needActive x
          return [total (scan input x e.label)]
      | .nonterminal => do
          needActive x
          demandInner x e.label
      | .substitution => do
          needActive x
          return [demand e.label x.right .site]
      | .foot => .ok [total (passFoot x)]

def process [One W] [Mul W] (input : List String) (c : Chart W) (x : Item W) :
    Except Fault (Chart W) := do
  (← phases input c x).foldlM run c

def processFrom [One W] [Mul W] (input : List String) (k : Nat) :
    Nat → Nat → Chart W → Except Fault (Chart W)
  | rounds, i, c => do
      match (← idsAt c k)[i]? with
      | none => return c
      | some id =>
          match rounds with
          | 0 => .error (.cutShort k)
          | rounds + 1 =>
              let x ← item c id
              processFrom input k rounds (i + 1) (← process input c x)

def ofSelection [One W] [Mul W] (selection : Selection W) (starts : SymbolSet)
    (input : List String) : Except Fault (Chart W) := do
  let seeded ← starts.toList.foldlM (fun c symbol => run c (demand symbol 0 .site))
    (empty selection starts input.length)
  (List.range (input.length + 1)).foldlM (fun c k => processFrom input k c.capacity 0 c) seeded

/-! ## Look-ups in a filed chart -/

theorem mapM_eq_filterMap {α β : Type} {f : α → Except Fault β} {g : α → Option β} {as : List α}
    (h : ∀ a ∈ as, ∃ b, f a = .ok b ∧ g a = some b) : as.mapM f = .ok (as.filterMap g) := by
  induction as with
  | nil => rfl
  | cons a as ih =>
      obtain ⟨b, hf, hg⟩ := h a List.mem_cons_self
      have hrest := ih fun a' ha' => h a' (List.mem_cons_of_mem a ha')
      rw [List.mapM_cons, hf, hrest, List.filterMap_cons_some hg]
      rfl

section LookUps

variable {c : Chart W}

theorem idsAt_eq {k : Nat} (hk : k < c.sets.size) : idsAt c k = .ok (c.idsAt k) := by
  simp [idsAt, Chart.idsAt, hk]

theorem item_eq {id : Nat} {x : Item W} (hx : c.items[id]? = some x) : item c id = .ok x := by
  simp [item, hx]

/-- What an empty chart lacks is noticed. -/
example (sel : Selection W) (starts : SymbolSet) :
    item (empty sel starts 0) 0 = .error (.noItem 0) ∧
      idsAt (empty sel starts 0) 1 = .error (.noSet 1) := ⟨rfl, rfl⟩

theorem itemsAt_eq (h : c.Filed) {k : Nat} (hk : k < c.sets.size) :
    itemsAt c k = .ok (c.itemsAt k) := by
  rw [itemsAt, idsAt_eq hk]
  refine mapM_eq_filterMap fun id hid => ?_
  obtain ⟨x, hx, -⟩ := h.sets.1 hid
  exact ⟨x, item_eq hx, hx⟩

theorem find?_eq (h : c.Filed) (key : Item.Key) : find? c key = .ok (c.find? key) := by
  unfold find? Chart.find?
  cases hindex : c.index[key]? with
  | none => rfl
  | some id =>
      obtain ⟨x, hx, -⟩ := h.index.1 hindex
      simp only [item_eq hx, Option.bind_some, hx]
      rfl

theorem layerOf_eq {t : AnchoredTree W} {i : Nat} (h : i < t.rule.layers.length) :
    layerOf t i = .ok ⟨i, h⟩ :=
  dif_pos h

theorem apply_eq (h : c.Filed) {a : Action W} (ha : a.Fits c) : apply c a = .ok (c.apply a) := by
  cases a with
  | note d => rfl
  | add x why =>
      cases hindex : c.index[x.key]? with
      | none =>
          simp only [apply, hindex, idsAt_eq ha]
          rfl
      | some id =>
          obtain ⟨y, hy, -⟩ := h.index.1 hindex
          simp only [apply, hindex, item_eq hy]
          rfl

end LookUps

/-! ## Phases without faults -/

section Phases

variable [One W] [Mul W] {sel : Selection W} {starts : SymbolSet} {input : List String}
  {c : Chart W}

theorem foldlM_apply_eq (hsel : sel.Sound) {k : Nat} {as : List (Action W)}
    (hc : Reached sel starts input c) (has : ∀ a ∈ as, LicensedAt sel input k c a) :
    as.foldlM apply c = .ok (as.foldl Chart.apply c) := by
  induction as generalizing c with
  | nil => rfl
  | cons a as ih =>
      have hinv := hc.inv hsel
      have ha := has a List.mem_cons_self
      have hstep := progress_apply hsel hc ha
      rw [List.foldlM_cons, apply_eq hinv.filed (hinv.fits_of_licensed hsel ha.1)]
      exact ih hstep.reached fun b hb =>
        (has b (List.mem_cons_of_mem a hb)).mono hstep.extension

/-- Whether a strict phase does what the phase does, whatever was done since the chart `c`. -/
def Matches (sel : Selection W) (starts : SymbolSet) (input : List String) (c : Chart W)
    (strict : Phase W) (phase : Chart.Phase W) : Prop :=
  ∀ c', Reached sel starts input c' → c.Extends c' → strict c' = .ok (phase c')

theorem Matches.mono {c' : Chart W} {strict : Phase W} {phase : Chart.Phase W}
    (h : Matches sel starts input c strict phase) (hext : c.Extends c') :
    Matches sel starts input c' strict phase :=
  fun c'' hc'' hext' => h c'' hc'' (hext.trans hext')

theorem foldlM_run_eq (hsel : sel.Sound) {k : Nat} {ss : List (Phase W)}
    {ps : List (Chart.Phase W)} (hc : Reached sel starts input c)
    (hmatch : List.Forall₂ (Matches sel starts input c) ss ps)
    (hps : ∀ phase ∈ ps, PhaseLicensed sel starts input k c phase) :
    ss.foldlM run c = .ok (ps.foldl Chart.run c) := by
  induction ps generalizing ss c with
  | nil =>
      cases hmatch
      rfl
  | cons phase ps ih =>
      cases hmatch with
      | @cons strict _ ss _ hphase hrest =>
          have hlicensed := hps phase List.mem_cons_self
          have hstep := (progress_run hsel hc hlicensed).1
          have hrun : run c strict = .ok (c.run phase) := by
            rw [run, hphase c hc (.refl c)]
            exact foldlM_apply_eq hsel hc (hlicensed c hc (.refl c))
          rw [List.foldlM_cons, hrun]
          refine ih hstep.reached ?_ fun p hp =>
            (hps p (List.mem_cons_of_mem phase hp)).mono hstep.extension
          exact hrest.imp fun _ _ h => h.mono hstep.extension

/-! ## Every phase -/

omit [One W] [Mul W] in
theorem openRoots_eq {trees : List (AnchoredTree W)}
    (htrees : ∀ t ∈ trees, 0 < t.rule.layers.length) (pos : Nat) :
    openRoots trees pos = .ok (Chart.openRoots trees pos) := by
  refine mapM_eq_filterMap fun t ht => ?_
  have hlayers := htrees t (List.mem_of_mem_filter ht)
  refine ⟨.add (Item.opened t ⟨0, hlayers⟩ pos t.rule.weight) .predicted, ?_, ?_⟩
  · rw [layerOf_eq hlayers]
    rfl
  · rw [Item.atRoot?, dif_pos hlayers]
    rfl

omit [One W] [Mul W] in
theorem openAuxiliary_eq (hsel : sel.Sound) (hc : c.selection = sel) (label : String) (pos : Nat)
    (side : Side) :
    openAuxiliary label pos side c = .ok (Chart.openAuxiliary label pos side c) := by
  refine openRoots_eq (fun t ht => ?_) pos
  rw [hc] at ht
  exact hsel.layers_pos (hsel.mem_auxiliary.1 (List.mem_of_mem_filter ht)).1

omit [Mul W] in
theorem demand_eq (hsel : sel.Sound) (hc : c.selection = sel) (label : String) (pos : Nat)
    (reason : Reason W) : demand label pos reason c = .ok (Chart.demand label pos reason c) := by
  have hreason : openReason label pos reason c = .ok (Chart.openReason label pos reason c) := by
    cases reason with
    | inner t i => rfl
    | site =>
        refine openRoots_eq (fun t ht => ?_) pos
        rw [hc] at ht
        exact hsel.layers_pos (hsel.mem_initial.1 ht).1
  unfold demand Chart.demand
  dsimp only
  split
  · rfl
  · rw [hreason, openAuxiliary_eq hsel hc]
    split <;> rfl

section Turn

variable {x : Item W}

theorem matches_demand (hsel : sel.Sound) (label : String) (pos : Nat) (reason : Reason W) :
    Matches sel starts input c (demand label pos reason) (Chart.demand label pos reason) :=
  fun _ hc' _ => demand_eq hsel (hc'.inv hsel).selection label pos reason

theorem matches_completeEmpty (hsel : sel.Sound) (i : Fin x.tree.rule.layers.length) :
    Matches sel starts input c (completeEmpty x i) (Chart.completeEmpty x i) := by
  intro c' hc' _
  unfold completeEmpty Chart.completeEmpty
  simp only [List.get_eq_getElem, Fin.getElem_fin]
  rw [find?_eq (hc'.inv hsel).filed]
  generalize c'.find? _ = child?
  cases child? <;> rfl

/-- A phase that selects items at a position of the input. -/
theorem matches_select (hsel : sel.Sound) {k : Nat} (hk : k ≤ input.length)
    (choose : Item W → Bool) (act : Item W → Action W) :
    Matches sel starts input c (fun c => do return ((← itemsAt c k).filter choose).map act)
      (fun c => ((c.itemsAt k).filter choose).map act) := by
  intro c' hc' _
  have hinv := hc'.inv hsel
  have hsize : k < c'.sets.size := by rw [hinv.size]; omega
  simp only [itemsAt_eq hinv.filed hsize]
  rfl

theorem forall₂_joinToHost (hsel : sel.Sound) (hv : x.Valid sel input.length) :
    List.Forall₂ (Matches sel starts input c) (joinToHost x) (Chart.joinToHost x) := by
  unfold joinToHost Chart.joinToHost
  cases x.current.lhs? with
  | none => exact .nil
  | some lhs =>
      refine .cons (fun c' hc' _ => ?_) (.cons ?_ .nil)
      · split
        · rfl
        · exact openAuxiliary_eq hsel (hc'.inv hsel).selection _ _ _
      · exact matches_select hsel (Nat.le_trans hv.left_le hv.right_le) _ _

theorem forall₂_joinToHosts (hsel : sel.Sound) (hv : x.Valid sel input.length) :
    List.Forall₂ (Matches sel starts input c) (joinToHosts c x) (Chart.joinToHosts c x) := by
  unfold joinToHosts Chart.joinToHosts
  dsimp only
  cases x.tree.side? with
  | none => exact .nil
  | some side =>
      cases side with
      | right => exact .cons (matches_select hsel (Nat.le_trans hv.left_le hv.right_le) _ _) .nil
      | left =>
          refine List.rel_append ?_ (.cons (matches_select hsel hv.right_le _ _) .nil)
          rw [List.forall₂_map_left_iff, List.forall₂_map_right_iff, List.forall₂_same]
          exact fun reason _ => matches_demand hsel _ _ reason

theorem forall₂_finish (hsel : sel.Sound) (hv : x.Valid sel input.length) :
    List.Forall₂ (Matches sel starts input c) (finish c x) (Chart.finish c x) := by
  have hleft := Nat.le_trans hv.left_le hv.right_le
  unfold finish Chart.finish
  refine List.rel_append ?_ ?_
  · split
    · exact .cons (matches_select hsel hleft _ _) .nil
    · split
      · exact .cons (matches_select hsel hleft _ _) .nil
      · exact .nil
  · split
    · exact forall₂_joinToHost hsel hv
    · exact forall₂_joinToHosts hsel hv

omit [One W] [Mul W] in
theorem needActive_eq {e : Entry} (hnext : x.next? = some e) : needActive x = .ok () :=
  if_pos (Item.isActive_of_next? hnext)

theorem exists_phases_eq (hsel : sel.Sound) (hv : x.Valid sel input.length) :
    ∃ ss, phases input c x = .ok ss ∧
      List.Forall₂ (Matches sel starts input c) ss (Chart.phases input c x) := by
  unfold phases Chart.phases
  cases hnext : x.next? with
  | none =>
      have hpassive : x.isPassive = true :=
        Item.isPassive_iff.2 (Layer.entry?_eq_none_iff.1 hnext)
      refine ⟨finish c x, ?_, forall₂_finish hsel hv⟩
      simp only [needPassive, hpassive]
      rfl
  | some e =>
      dsimp only
      have hactive := needActive_eq hnext
      cases e.role with
      | terminal =>
          refine ⟨[total (scan input x e.label)], ?_, .cons (fun _ _ _ => rfl) .nil⟩
          rw [hactive]
          rfl
      | foot => exact ⟨[total (passFoot x)], rfl, .cons (fun _ _ _ => rfl) .nil⟩
      | substitution =>
          refine ⟨[demand e.label x.right .site], ?_, .cons (matches_demand hsel _ _ _) .nil⟩
          rw [hactive]
          rfl
      | nonterminal =>
          rw [hactive]
          cases hi : x.tree.rule.indexOf? x.nextAddress with
          | none =>
              refine ⟨[], ?_, ?_⟩
              · simp only [demandInner, hi]
                rfl
              · rw [demandInner_of_none hi]
                exact .nil
          | some i =>
              let layer : Fin x.tree.rule.layers.length := ⟨i, Rule.lt_length_of_indexOf? hi⟩
              refine ⟨[demand e.label x.right (.inner x.tree layer), completeEmpty x layer], ?_, ?_⟩
              · simp only [demandInner, hi, layerOf_eq (Rule.lt_length_of_indexOf? hi)]
                rfl
              · rw [demandInner_of_some hi]
                exact .cons (matches_demand hsel _ _ _) (.cons (matches_completeEmpty hsel _) .nil)

theorem process_eq (hsel : sel.Sound) (hc : Reached sel starts input c) (hx : c.Has x) :
    process input c x = .ok (c.process input x) := by
  obtain ⟨ss, hphases, hmatch⟩ : ∃ ss, phases input c x = .ok ss ∧
      List.Forall₂ (Matches sel starts input c) ss (Chart.phases input c x) :=
    exists_phases_eq hsel ((hc.inv hsel).valid_of_has hx)
  rw [process, hphases]
  exact foldlM_run_eq hsel hc hmatch fun _ => phaseLicensed_of_mem_phases hsel hc hx

end Turn

/-! ## Whole analyses -/

/-- The rounds suffice, since a position holds no more items than the chart has cells. -/
theorem processFrom_eq (hsel : sel.Sound) {k : Nat} (hk : k ≤ input.length) (rounds : Nat)
    {i : Nat} (hc : Reached sel starts input c) (hi : i ≤ (c.idsAt k).length)
    (hrounds : c.capacity ≤ rounds + i) :
    processFrom input k rounds i c = .ok (Chart.processFrom input k rounds i c) := by
  have hinv := hc.inv hsel
  have hids : idsAt c k = .ok (c.idsAt k) := idsAt_eq (by rw [hinv.size]; omega)
  induction rounds generalizing i c with
  | zero =>
      have hbound := Nat.le_trans (hinv.filed.length_idsAt_le k) hinv.size_items_le
      have hend : (c.idsAt k)[i]? = none := List.getElem?_eq_none (by omega)
      unfold processFrom
      rw [hids]
      simp only [bind, Except.bind, hend]
      rfl
  | succ rounds ih =>
      cases hx : c.turn k i with
      | none =>
          have hend := List.getElem?_eq_none (hinv.filed.length_le_of_turn hx)
          rw [(processFrom_of_none hx _).1]
          unfold processFrom
          rw [hids]
          simp only [bind, Except.bind, hend]
          rfl
      | some x =>
          obtain ⟨hhas, hmem, -, hplace⟩ := hinv.filed.of_turn hx
          have hstep := (progress_process hsel hc hhas).1
          have hinv' := hstep.reached.inv hsel
          have hlt := (List.getElem?_eq_some_iff.1 hplace).1
          have hgrow := (hstep.extension.idsAt k).length_le
          have hcapacity : (c.process input x).capacity = c.capacity := by
            rw [hinv'.capacity_eq, hinv.capacity_eq]
          rw [(processFrom_of_some hx _).1]
          unfold processFrom
          rw [hids]
          simp only [bind, Except.bind, hplace, item_eq (hinv.filed.getElem?_id hmem),
            process_eq hsel hc hhas]
          exact ih hstep.reached (by omega) (by omega) hinv'
            (idsAt_eq (by rw [hinv'.size]; omega))

theorem foldlM_processFrom_eq (hsel : sel.Sound) {ks : List Nat}
    (hks : ∀ k ∈ ks, k ≤ input.length) (hc : Reached sel starts input c) :
    ks.foldlM (fun c k => processFrom input k c.capacity 0 c) c =
      .ok (ks.foldl (processSet input) c) := by
  induction ks generalizing c with
  | nil => rfl
  | cons k ks ih =>
      have hset := processFrom_eq hsel (hks k List.mem_cons_self) c.capacity hc (Nat.zero_le _)
        (Nat.le_refl _)
      have hreached := (reached_processFromLog k c.capacity 0 hsel hc).last
      rw [foldl_processFromLog] at hreached
      rw [List.foldlM_cons, hset]
      exact ih (fun j hj => hks j (List.mem_cons_of_mem k hj)) hreached

theorem ofSelection_eq (hsel : sel.Sound) :
    ofSelection sel starts input = .ok (Chart.ofSelection sel starts input) := by
  have hseeded : starts.toList.foldlM (fun c symbol => run c (demand symbol 0 .site))
      (empty sel starts input.length) = .ok (seeded sel starts input.length) := by
    rw [seeded_eq_foldl_run, ← List.foldlM_map (f := fun symbol => demand symbol 0 .site)]
    refine foldlM_run_eq (k := 0) hsel .empty ?_ (phaseLicensed_of_mem_starts hsel _ _)
    rw [List.forall₂_map_left_iff, List.forall₂_map_right_iff, List.forall₂_same]
    exact fun symbol _ => matches_demand hsel symbol 0 .site
  rw [ofSelection, hseeded]
  refine foldlM_processFrom_eq hsel (fun k hk => ?_) (reached_seeded hsel)
  exact Nat.le_of_lt_succ (List.mem_range.1 hk)

end Phases

end Strict

end Chart

namespace Grammar

variable {W : Type} [One W] [Mul W]

def parseStrictly (g : Grammar W) (input : List String) :
    Except Chart.Strict.Fault (Chart W) :=
  Chart.Strict.ofSelection (g.select input) g.starts input

/--
At every moment of an analysis an item is filed under its number, its cell and its right
end, no cell has two items, and every item is one of a selected tree in a span of the input.
Hence no look-up misses and no item is taken for what it is not, and the analysis with strict
look-ups gives the same chart.
-/
theorem filed_at_every_moment (g : Grammar W) (input : List String) :
    (∀ m, (g.moment input m).Filed ∧
      ((g.moment input m).items.toList.map Item.key).Nodup ∧
      (g.moment input m).sets.size = input.length + 1 ∧
      ∀ x ∈ (g.moment input m).items, x.Valid (g.select input) input.length) ∧
    g.parseStrictly input = .ok (g.parse input) := by
  have hsel := g.sound_select input
  refine ⟨fun m => ?_, Chart.Strict.ofSelection_eq hsel⟩
  have hinv := (g.reached_moment input m).inv hsel
  exact ⟨hinv.filed, hinv.filed.nodup_keys, hinv.size, hinv.valid⟩

end Grammar

end TreeInsertion
