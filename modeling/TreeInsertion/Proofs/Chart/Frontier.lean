import TreeInsertion.Proofs.Chart.Stages

/-!
# Behind the position

While the items at a position have their turns, items come up there and at the next
position only, and demands are noted there only.  Hence what lies behind the position of
an analysis stays as it is, down to the derivations of the items.
-/

namespace TreeInsertion

variable {W : Type}

namespace Chart

/-! ## Charts that agree on a position -/

/--
Whether two charts show the same at a position: the items that end there, with their
derivations, and what is in demand there, each in the same order.
-/
structure AgreeAt (k : Nat) (c c' : Chart W) : Prop where
  ids : c'.idsAt k = c.idsAt k
  items : c'.itemsAt k = c.itemsAt k
  reasons : ∀ label, c'.reasonsAt k label = c.reasonsAt k label

namespace AgreeAt

variable {k : Nat} {c c' c'' : Chart W}

theorem refl (k : Nat) (c : Chart W) : AgreeAt k c c :=
  ⟨rfl, rfl, fun _ => rfl⟩

theorem trans (h : AgreeAt k c c') (h' : AgreeAt k c' c'') : AgreeAt k c c'' where
  ids := h'.ids.trans h.ids
  items := h'.items.trans h.items
  reasons label := (h'.reasons label).trans (h.reasons label)

theorem of_ids (hids : c'.idsAt k = c.idsAt k)
    (hitems : ∀ id ∈ c.idsAt k, c'.items[id]? = c.items[id]?)
    (hreasons : ∀ label, c'.reasonsAt k label = c.reasonsAt k label) : AgreeAt k c c' := by
  refine ⟨hids, ?_, hreasons⟩
  rw [itemsAt, itemsAt, hids]
  exact List.filterMap_congr hitems

end AgreeAt

section Actions

variable {j k : Nat} {c : Chart W}

/-- Adding an item changes nothing where it does not end, not even if its cell is taken. -/
theorem Filed.agreeAt_add (h : c.Filed) {x : Item W} (hk : x.right ≠ k) (why : Derivation) :
    AgreeAt k c (c.add x why) := by
  have hreasons (label : String) : (c.add x why).reasonsAt k label = c.reasonsAt k label := by
    rw [reasonsAt, reasonsAt, demands_add]
  cases hindex : c.index[x.key]? with
  | some i =>
      rw [add_of_taken hindex] at hreasons ⊢
      refine .of_ids rfl (fun id hid => ?_) hreasons
      obtain ⟨y, hy, hright⟩ := h.sets.1 hid
      obtain ⟨z, hz, hkey⟩ := h.index.1 hindex
      -- the item in the cell ends where `x` does, so it is none of those that end at `k`
      have hne : i ≠ id := by
        rintro rfl
        cases hy.symm.trans hz
        exact hk ((congrArg Item.Key.right hkey).symm.trans hright)
      rw [getElem?_modify_derive, hy, Option.map_some, if_neg hne]
  | none =>
      rw [add_of_free hindex] at hreasons ⊢
      refine .of_ids ?_ (fun id hid => ?_) hreasons
      · simp [idsAt, Array.getElem?_modify, hk]
      · have hlt := h.lt_size_of_mem_idsAt hid
        rw [Array.getElem?_push, if_neg (Nat.ne_of_lt hlt)]

theorem Filed.agreeAt_apply (h : c.Filed) {a : Action W} (ha : a.At k) (hj : j < k) :
    AgreeAt j c (c.apply a) := by
  cases a with
  | add x why =>
      have hne : x.right ≠ j := by rcases ha with hright | hright <;> omega
      exact h.agreeAt_add hne why
  | note d =>
      have hne : d.pos ≠ j := fun hpos => Nat.ne_of_gt hj (ha.symm.trans hpos)
      exact .of_ids rfl (fun _ _ => rfl) fun label => by simp [Chart.apply, reasonsAt, hne]

/-- Actions at a position: at no moment on the way has anything changed behind it. -/
theorem agreeAt_of_throughout {as : List (Action W)} (h : Throughout Filed c as)
    (has : ∀ a ∈ as, a.At k) (hj : j < k) : Throughout (AgreeAt j c) c as := by
  intro m
  induction m with
  | zero => exact .refl j c
  | succ m ih =>
      rcases Nat.lt_or_ge m as.length with hlt | hge
      · rw [List.take_succ_eq_append_getElem hlt, List.foldl_append, List.foldl_cons,
          List.foldl_nil]
        exact ih.trans ((h m).agreeAt_apply (has _ (List.getElem_mem hlt)) hj)
      · rwa [List.take_of_length_le (Nat.le_succ_of_le hge), ← List.take_of_length_le hge]

end Actions

theorem at_of_mem_phasesLog [One W] [Mul W] {sel : Selection W} {starts : SymbolSet}
    {input : List String} (hsel : sel.Sound) {k : Nat} {c : Chart W} {ps : List (Phase W)}
    (hc : Reached sel starts input c)
    (hps : ∀ phase ∈ ps, PhaseLicensed sel starts input k c phase) :
    ∀ a ∈ c.phasesLog ps, a.At k := by
  induction ps generalizing c with
  | nil => simp [phasesLog]
  | cons phase ps ih =>
      intro a ha
      have hphase := hps phase List.mem_cons_self
      have hstep := (progress_run hsel hc hphase).1
      rcases List.mem_append.1 ha with ha | ha
      · exact (hphase c hc (.refl c) a ha).2
      · exact ih hstep.reached
          (fun p hp => (hps p (List.mem_cons_of_mem phase hp)).mono hstep.extension) a ha

end Chart

namespace Stage

variable [One W] [Mul W] {sel : Selection W} {starts : SymbolSet} {input : List String}
  {s s' : Stage W}

/-! ## The actions of a turn -/

/-- What the item whose turn it is does to the chart, in order. -/
def actions (input : List String) (s : Stage W) : List (Chart.Action W) :=
  match s.item? with
  | none => []
  | some x => s.chart.phasesLog (Chart.phases input s.chart x)

theorem foldl_actions (input : List String) {x : Item W} (hx : s.item? = some x) :
    (s.actions input).foldl Chart.apply s.chart = s.chart.process input x := by
  rw [actions, hx]
  exact Chart.foldl_phasesLog _ _

namespace Orderly

/-- A turn goes through reached charts, and all its actions concern the position. -/
theorem actions_spec (h : s.Orderly sel starts input) (hsel : sel.Sound) :
    Chart.Throughout (Chart.Reached sel starts input) s.chart (s.actions input) ∧
      ∀ a ∈ s.actions input, a.At s.pos := by
  unfold actions
  cases hx : s.item? with
  | none => exact ⟨fun m => by simpa using h.reached, by simp⟩
  | some x =>
      obtain ⟨hhas, -, hright, -⟩ := (h.inv hsel).filed.of_turn hx
      have hps : ∀ phase ∈ Chart.phases input s.chart x,
          Chart.PhaseLicensed sel starts input s.pos s.chart phase := fun _ hphase =>
        hright ▸ Chart.phaseLicensed_of_mem_phases hsel h.reached hhas hphase
      exact ⟨Chart.reached_phasesLog hsel h.reached hps,
        Chart.at_of_mem_phasesLog hsel h.reached hps⟩

theorem agreeAt_throughout (h : s.Orderly sel starts input) (hsel : sel.Sound) {k : Nat}
    (hk : k < s.pos) : Chart.Throughout (s.chart.AgreeAt k) s.chart (s.actions input) := by
  obtain ⟨hreached, hat⟩ := h.actions_spec hsel
  exact Chart.agreeAt_of_throughout (fun m => ((hreached m).inv hsel).filed) hat hk

theorem agreeAt_next (h : s.Orderly sel starts input) (hsel : sel.Sound)
    (hnext : Next input s s') {k : Nat} (hk : k < s.pos) : s.chart.AgreeAt k s'.chart := by
  cases hnext with
  | move hpos hend => exact .refl k s.chart
  | turn hx => exact foldl_actions input hx ▸ (h.agreeAt_throughout hsel hk).last

/-- What lies behind the position stays as it is from stage to stage. -/
theorem agreeAt_of_reflTransGen (h : s.Orderly sel starts input) (hsel : sel.Sound)
    (hlater : Relation.ReflTransGen (Next input) s s') {k : Nat} (hk : k < s.pos) :
    s.chart.AgreeAt k s'.chart := by
  induction hlater with
  | refl => exact .refl k s.chart
  | tail hlater hnext ih =>
      obtain ⟨hfollows, horderly⟩ := h.follows_of_reflTransGen hsel hlater
      exact ih.trans (horderly.agreeAt_next hsel hnext (Nat.lt_of_lt_of_le hk hfollows.pos_le))

/-- Behind the last position, the items that had their turn are those of the chart. -/
theorem turns_perm (h : s.Orderly sel starts input) (hsel : sel.Sound)
    (hpos : s.pos = input.length + 1) :
    s.turns.Perm (s.chart.items.toList.map Item.id) := by
  have hinv := h.inv hsel
  rw [hinv.filed.map_id, List.perm_ext_iff_of_nodup h.nodup List.nodup_range]
  intro id
  rw [h.mem_turns, List.mem_range]
  constructor
  · rintro ⟨x, rfl, ⟨ds, hx⟩, -⟩
    exact (Array.getElem?_eq_some_iff.1 hx).1
  · intro hid
    have hmem := Array.getElem_mem hid
    have hright := (hinv.valid _ hmem).right_le
    exact ⟨s.chart.items[id], hinv.filed.id_eq (Array.getElem?_eq_getElem hid),
      hinv.filed.has_of_mem hmem, Or.inl (by omega)⟩

end Orderly

end Stage

namespace Grammar

variable [One W] [Mul W]

/--
Of the actions that make up a turn, each adds an item at the position or at the next one,
or notes a demand at the position.  At every moment of every later turn, the items behind
the position, their derivations and the demands there are the same.  Every stage leads to
the last one, where the chart is the finished one and each of its items has had one turn.
-/
theorem nothing_changes_behind (g : Grammar W) (input : List String) :
    (∀ s : Stage W, s.Reachable (g.select input) g.starts input →
      (∀ x, s.item? = some x →
        (s.actions input).foldl Chart.apply s.chart = s.chart.process input x) ∧
      (∀ a ∈ s.actions input, a.At s.pos) ∧
      ∀ s' : Stage W, Relation.ReflTransGen (Stage.Next input) s s' → ∀ k < s.pos,
        Chart.Throughout (s.chart.AgreeAt k) s'.chart (s'.actions input)) ∧
    ∃ last : Stage W, last.chart = g.parse input ∧ (∀ s, ¬ Stage.Next input last s) ∧
      (∀ s : Stage W, s.Reachable (g.select input) g.starts input →
        Relation.ReflTransGen (Stage.Next input) s last) ∧
      last.turns.Perm ((g.parse input).items.toList.map Item.id) := by
  have hsel := g.sound_select input
  constructor
  · intro s hs
    have horderly := hs.orderly hsel
    refine ⟨fun x hx => Stage.foldl_actions input hx, (horderly.actions_spec hsel).2,
      fun s' hlater k hk m => ?_⟩
    obtain ⟨hfollows, horderly'⟩ := horderly.follows_of_reflTransGen hsel hlater
    exact (horderly.agreeAt_of_reflTransGen hsel hlater hk).trans
      (horderly'.agreeAt_throughout hsel (Nat.lt_of_lt_of_le hk hfollows.pos_le) m)
  · obtain ⟨turns, hlast⟩ := Stage.exists_reachable_last g.starts input hsel
    have horderly := hlast.orderly hsel
    exact ⟨_, rfl, fun s => horderly.not_next hsel rfl,
      fun s hs => hs.leads_to_last hsel hlast rfl, horderly.turns_perm hsel rfl⟩

end Grammar

end TreeInsertion
