import Mathlib.Logic.Relation
import TreeInsertion.Proofs.Chart.Schedule

/-!
# The course of an analysis

An analysis goes through stages.  It takes the next item at its position, those that came
up meanwhile included, and when all items there had their turn it moves on.  Nothing here
bounds the number of turns: that every course ends is proved.
-/

namespace TreeInsertion

variable {W : Type}

structure Stage (W : Type) where
  /-- The numbers of the items that had their turn, in order. -/
  turns : List Nat
  pos : Nat
  /-- The place among the items that end at the position. -/
  place : Nat
  chart : Chart W

namespace Stage

variable [One W] [Mul W]

def first (sel : Selection W) (starts : SymbolSet) (input : List String) : Stage W :=
  ⟨[], 0, 0, Chart.seeded sel starts input.length⟩

def item? (s : Stage W) : Option (Item W) :=
  s.chart.turn s.pos s.place

inductive Next (input : List String) : Stage W → Stage W → Prop where
  | turn {s : Stage W} {x : Item W} (hx : s.item? = some x) :
      Next input s ⟨s.turns ++ [x.id], s.pos, s.place + 1, s.chart.process input x⟩
  | move {s : Stage W} (hpos : s.pos ≤ input.length)
      (hend : (s.chart.idsAt s.pos).length ≤ s.place) :
      Next input s ⟨s.turns, s.pos + 1, 0, s.chart⟩

def Reachable (sel : Selection W) (starts : SymbolSet) (input : List String) (s : Stage W) :
    Prop :=
  Relation.ReflTransGen (Next input) (first sel starts input) s

/-! ## What holds at every stage -/

/-- The items that had their turn are those before the place, each of them once. -/
structure Orderly (sel : Selection W) (starts : SymbolSet) (input : List String) (s : Stage W) :
    Prop where
  reached : Chart.Reached sel starts input s.chart
  pos_le : s.pos ≤ input.length + 1
  nodup : s.turns.Nodup
  mem_turns : ∀ {id : Nat}, id ∈ s.turns ↔
    ∃ x : Item W, x.id = id ∧ Chart.Done s.pos s.place s.chart x

variable {sel : Selection W} {starts : SymbolSet} {input : List String} {s s' : Stage W}

theorem orderly_first (hsel : sel.Sound) : (first sel starts input).Orderly sel starts input where
  reached := Chart.reached_seeded hsel
  pos_le := Nat.zero_le _
  nodup := List.nodup_nil
  mem_turns := by
    intro id
    simp only [first, List.not_mem_nil, false_iff]
    rintro ⟨x, -, hdone⟩
    exact Chart.not_done_zero hdone

namespace Orderly

theorem inv (h : s.Orderly sel starts input) (hsel : sel.Sound) :
    s.chart.Inv sel starts input.length :=
  h.reached.inv hsel

theorem notMem_turns (h : s.Orderly sel starts input) (hsel : sel.Sound) {x : Item W}
    (hx : s.item? = some x) : x.id ∉ s.turns := by
  have hfiled := (h.inv hsel).filed
  obtain ⟨-, hmem, hright, hplace⟩ := hfiled.of_turn hx
  intro hid
  obtain ⟨y, hsame, ⟨ds, hy⟩, hbefore⟩ := h.mem_turns.1 hid
  rw [hsame, hfiled.getElem?_id hmem, Option.some.injEq] at hy
  rcases hbefore with hlt | ⟨-, hearlier⟩
  · rw [hy] at hright
    exact absurd hright (Nat.ne_of_lt hlt)
  · rw [hsame] at hearlier
    obtain ⟨hlt, heq⟩ := List.getElem?_eq_some_iff.1 hplace
    obtain ⟨j, hj, hsame⟩ := List.mem_take_iff_getElem.1 hearlier
    have hless := List.pairwise_iff_getElem.1 (hfiled.sorted s.pos) j s.place (by omega) hlt
      (by omega)
    rw [hsame, heq] at hless
    exact absurd hless (Nat.lt_irrefl _)

theorem turn (h : s.Orderly sel starts input) (hsel : sel.Sound) {x : Item W}
    (hx : s.item? = some x) :
    Orderly sel starts input
      ⟨s.turns ++ [x.id], s.pos, s.place + 1, s.chart.process input x⟩ := by
  obtain ⟨hhas, -, hright, hplace⟩ := (h.inv hsel).filed.of_turn hx
  have hstep := (Chart.progress_process hsel h.reached hhas).1
  obtain ⟨rest, hrest⟩ := hstep.extension.idsAt s.pos
  have hlength := (List.getElem?_eq_some_iff.1 hplace).1
  have htake : ((s.chart.process input x).idsAt s.pos).take (s.place + 1) =
      (s.chart.idsAt s.pos).take s.place ++ [x.id] := by
    rw [← hrest, List.take_append_of_le_length hlength, List.take_add_one, hplace]
    rfl
  refine ⟨hstep.reached, h.pos_le, ?_, ?_⟩
  · rw [List.nodup_append_comm]
    exact List.nodup_cons.2 ⟨h.notMem_turns hsel hx, h.nodup⟩
  · intro id
    rw [List.mem_append, List.mem_singleton, h.mem_turns]
    constructor
    · rintro (⟨y, rfl, hy, hbefore⟩ | rfl)
      · refine ⟨y, rfl, hstep.extension.has hy, hbefore.imp_right fun hearlier => ?_⟩
        rw [htake]
        exact ⟨hearlier.1, List.mem_append_left _ hearlier.2⟩
      · refine ⟨x, rfl, hstep.extension.has hhas, Or.inr ⟨hright, ?_⟩⟩
        rw [htake]
        exact List.mem_append_right _ (List.mem_singleton_self _)
    · rintro ⟨y, rfl, hdone⟩
      rcases hdone.of_turn hsel h.reached hx with hold | ⟨ds, hnew⟩
      · exact Or.inl ⟨y, rfl, hold⟩
      · exact Or.inr (by rw [← hnew])

theorem move (h : s.Orderly sel starts input) (hsel : sel.Sound) (hpos : s.pos ≤ input.length)
    (hend : (s.chart.idsAt s.pos).length ≤ s.place) :
    Orderly sel starts input ⟨s.turns, s.pos + 1, 0, s.chart⟩ := by
  refine ⟨h.reached, Nat.succ_le_succ hpos, h.nodup, ?_⟩
  intro id
  rw [h.mem_turns]
  refine exists_congr fun x => and_congr_right fun _ => ?_
  constructor
  · rintro ⟨hx, hbefore⟩
    exact ⟨hx, Or.inl (by dsimp only; omega)⟩
  · intro hdone
    have hlast := hdone.of_next (h.inv hsel).filed
    rw [Chart.Done, List.take_length] at hlast
    rwa [Chart.Done, List.take_of_length_le hend]

/-- Every step keeps the order. -/
theorem next (h : s.Orderly sel starts input) (hsel : sel.Sound) (hnext : Next input s s') :
    s'.Orderly sel starts input := by
  cases hnext with
  | turn hx => exact h.turn hsel hx
  | move hpos hend => exact h.move hsel hpos hend

end Orderly

theorem Reachable.orderly (hsel : sel.Sound) (h : s.Reachable sel starts input) :
    s.Orderly sel starts input := by
  induction h with
  | refl => exact orderly_first hsel
  | tail _ hnext ih => exact ih.next hsel hnext

/-! ## Later stages -/

/-- What a later stage keeps: items stay, and nothing comes up behind the position. -/
structure Follows (s s' : Stage W) : Prop where
  extension : s.chart.Extends s'.chart
  pos_le : s.pos ≤ s'.pos
  behind : ∀ {k : Nat}, k < s.pos → s'.chart.idsAt k = s.chart.idsAt k

omit [One W] [Mul W] in
theorem Follows.refl (s : Stage W) : s.Follows s :=
  ⟨.refl _, Nat.le_refl _, fun _ => rfl⟩

omit [One W] [Mul W] in
theorem Follows.trans {t : Stage W} (h : s.Follows s') (h' : s'.Follows t) : s.Follows t where
  extension := h.extension.trans h'.extension
  pos_le := Nat.le_trans h.pos_le h'.pos_le
  behind hk := (h'.behind (Nat.lt_of_lt_of_le hk h.pos_le)).trans (h.behind hk)

theorem Orderly.follows (h : s.Orderly sel starts input) (hsel : sel.Sound)
    (hnext : Next input s s') : s.Follows s' := by
  cases hnext with
  | move hpos hend => exact ⟨.refl _, Nat.le_succ _, fun _ => rfl⟩
  | @turn x hx =>
      obtain ⟨hhas, -, hright, -⟩ := (h.inv hsel).filed.of_turn hx
      have hstep := (Chart.progress_process hsel h.reached hhas).1
      refine ⟨hstep.extension, Nat.le_refl _, fun {k} hk => ?_⟩
      exact hstep.growth.idsAt (by omega) (by omega)

theorem Orderly.follows_of_reflTransGen (h : s.Orderly sel starts input) (hsel : sel.Sound)
    (hlater : Relation.ReflTransGen (Next input) s s') :
    s.Follows s' ∧ s'.Orderly sel starts input := by
  induction hlater with
  | refl => exact ⟨.refl s, h⟩
  | tail _ hnext ih => exact ⟨ih.1.trans (ih.2.follows hsel hnext), ih.2.next hsel hnext⟩

/-- What had its turn had it at some stage. -/
theorem Reachable.exists_turn (h : s.Reachable sel starts input) {id : Nat} (hid : id ∈ s.turns) :
    ∃ t : Stage W, t.Reachable sel starts input ∧ ∃ x, t.item? = some x ∧ x.id = id := by
  induction h with
  | refl => simp [first] at hid
  | @tail s s' hs hnext ih =>
      cases hnext with
      | move hpos hend => exact ih hid
      | @turn x hx =>
          rcases List.mem_append.1 hid with hold | hnew
          · exact ih hold
          · exact ⟨s, hs, x, hx, (List.mem_singleton.1 hnew).symm⟩

/-! ## The end of an analysis -/

theorem Orderly.length_turns_le (h : s.Orderly sel starts input) (hsel : sel.Sound) :
    s.turns.length ≤ s.chart.items.size := by
  have hfiled := (h.inv hsel).filed
  have hsubset : s.turns ⊆ List.range s.chart.items.size := by
    intro id hid
    obtain ⟨x, rfl, ⟨ds, hx⟩, -⟩ := h.mem_turns.1 hid
    exact List.mem_range.2 (Array.getElem?_eq_some_iff.1 hx).1
  simpa using (h.nodup.subperm hsubset).length_le

/-- Every step is a turn or a move. -/
theorem Next.clock (h : Next input s s') :
    s'.turns.length + s'.pos = s.turns.length + s.pos + 1 := by
  cases h with
  | turn hx => simp only [List.length_append, List.length_singleton]; omega
  | move hpos hend => rfl

/-- There are no more turns than cells and no more moves than positions. -/
theorem Reachable.clock_le (hsel : sel.Sound) (h : s.Reachable sel starts input) :
    s.turns.length + s.pos ≤
      (input.length + 1) * (input.length + 2) * sel.dotCount + (input.length + 1) := by
  have horderly := h.orderly hsel
  have hinv := horderly.inv hsel
  have hturns := horderly.length_turns_le hsel
  have hitems := hinv.size_items_le
  rw [hinv.capacity_eq] at hitems
  have hpos := horderly.pos_le
  omega

/-- No run goes on for ever. -/
theorem not_endless (hsel : sel.Sound) : ¬ ∃ run : Nat → Stage W,
    run 0 = first sel starts input ∧ ∀ m, Next input (run m) (run (m + 1)) := by
  rintro ⟨run, hfirst, hendless⟩
  have hrun (m : Nat) : (run m).Reachable sel starts input ∧
      (run m).turns.length + (run m).pos = m := by
    induction m with
    | zero => exact ⟨hfirst ▸ .refl, by rw [hfirst]; rfl⟩
    | succ m ih =>
        have hclock := (hendless m).clock
        exact ⟨ih.1.tail (hendless m), by omega⟩
  obtain ⟨hreach, hclock⟩ :=
    hrun ((input.length + 1) * (input.length + 2) * sel.dotCount + (input.length + 1) + 1)
  have hle := hreach.clock_le hsel
  omega

/-- Behind the last position nothing is left to do. -/
theorem Orderly.not_next (h : s.Orderly sel starts input) (hsel : sel.Sound)
    (hpos : s.pos = input.length + 1) : ¬ Next input s s' := by
  intro hnext
  cases hnext with
  | move hle hend => omega
  | @turn x hx =>
      obtain ⟨-, hmem, hright, -⟩ := (h.inv hsel).filed.of_turn hx
      have hle := ((h.inv hsel).valid x hmem).right_le
      omega

/-- A stage has one next stage at most. -/
theorem Next.unique : Relator.RightUnique (Next (W := W) input) := by
  have hends {s : Stage W} {x : Item W} (hx : s.item? = some x) :
      ¬ (s.chart.idsAt s.pos).length ≤ s.place := by
    obtain ⟨id, hid, -⟩ := Option.bind_eq_some_iff.1 hx
    exact Nat.not_le.2 (List.getElem?_eq_some_iff.1 hid).1
  intro s t t' ht ht'
  cases ht with
  | turn hx =>
      cases ht' with
      | turn hx' => cases hx.symm.trans hx'; rfl
      | move _ hend => exact absurd hend (hends hx)
  | move _ hend =>
      cases ht' with
      | turn hx => exact absurd hend (hends hx)
      | move _ _ => rfl

variable (starts input) in
/-- The analysis comes to its end, where the chart is the finished one. -/
theorem exists_reachable_last (hsel : sel.Sound) : ∃ turns,
    Reachable sel starts input
      ⟨turns, input.length + 1, 0, Chart.ofSelection sel starts input⟩ := by
  refine Chart.ofSelection_induction hsel
    (P := fun k i c => k ≤ input.length + 1 →
      ∃ turns, Reachable sel starts input ⟨turns, k, i, c⟩)
    ?_ ?_ ?_ (Nat.le_refl _)
  · exact fun _ => ⟨[], .refl⟩
  · intro k i c x _ hx ih hk
    obtain ⟨turns, hreach⟩ := ih hk
    exact ⟨turns ++ [x.id], hreach.tail (.turn hx)⟩
  · intro k c _ ih hk
    obtain ⟨turns, hreach⟩ := ih (Nat.le_of_succ_le hk)
    exact ⟨turns, hreach.tail (.move (Nat.le_of_succ_le_succ hk) (Nat.le_refl _))⟩

/-- Every stage leads to the end. -/
theorem Reachable.leads_to_last (hsel : sel.Sound) (h : s.Reachable sel starts input)
    (hlast : s'.Reachable sel starts input) (hpos : s'.pos = input.length + 1) :
    Relation.ReflTransGen (Next input) s s' := by
  rcases Relation.ReflTransGen.total_of_right_unique Next.unique h hlast with hlater | hlater
  · exact hlater
  · rcases Relation.ReflTransGen.cases_head hlater with rfl | ⟨t, hnext, -⟩
    · exact .refl
    · exact absurd hnext ((hlast.orderly hsel).not_next hsel hpos)

theorem Reachable.follows_last (hsel : sel.Sound) (h : s.Reachable sel starts input)
    (hlast : s'.Reachable sel starts input) (hpos : s'.pos = input.length + 1) : s.Follows s' :=
  ((h.orderly hsel).follows_of_reflTransGen hsel (h.leads_to_last hsel hlast hpos)).1

end Stage

namespace Selection

/-- A place for a dot stands behind every entry. -/
theorem dotCount_eq_sum (sel : Selection W) :
    sel.dotCount = (sel.trees.map fun t => (t.rule.layers.map Layer.length).sum).sum := by
  rw [dotCount, List.length_flatMap]
  refine congrArg List.sum (List.map_congr_left fun t _ => ?_)
  exact List.length_flatMap

end Selection

namespace Grammar

variable [One W] [Mul W]

/--
For every input, no run of the analysis goes on for ever, and one comes to a stage where
nothing is left to do and the chart is the finished one.  The chart has no more items than
its cells: for each entry of a layer of a selected tree, one in each span with a left
auxiliary tree joined to the node and one without.
-/
theorem analysis_ends (g : Grammar W) (input : List String) :
    (¬ ∃ run : Nat → Stage W, run 0 = .first (g.select input) g.starts input ∧
      ∀ m, Stage.Next input (run m) (run (m + 1))) ∧
    (∃ s : Stage W, s.Reachable (g.select input) g.starts input ∧
      (∀ s', ¬ Stage.Next input s s') ∧ s.chart = g.parse input) ∧
    (g.parse input).items.size ≤ (input.length + 1) * (input.length + 2) *
      ((g.select input).trees.map fun t => (t.rule.layers.map Layer.length).sum).sum := by
  have hsel := g.sound_select input
  refine ⟨Stage.not_endless hsel, ?_, ?_⟩
  · obtain ⟨turns, hreach⟩ := Stage.exists_reachable_last g.starts input hsel
    exact ⟨_, hreach, fun s' => (hreach.orderly hsel).not_next hsel rfl, rfl⟩
  · have hinv := (g.reached_parse input).inv hsel
    have hle := hinv.size_items_le
    rwa [hinv.capacity_eq, Selection.dotCount_eq_sum] at hle

end Grammar

end TreeInsertion
