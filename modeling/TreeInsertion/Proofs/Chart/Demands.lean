import TreeInsertion.Proofs.Chart.Closure

/-!
# Demands are met

Whatever is in demand has been opened, with the left auxiliary trees that may stand
before it, and the items that had their turn have demanded what they wait for.
-/

namespace TreeInsertion

variable {W : Type} [One W] [Mul W] {sel : Selection W} {starts : SymbolSet}
  {input : List String}

omit [One W] [Mul W] in
theorem Reason.eq_of_same (hsel : sel.Sound) {n pos pos' : Nat} {label label' : String}
    {reason reason' : Reason W} (hd : Demand.Valid sel n ⟨pos, label, reason⟩)
    (hd' : Demand.Valid sel n ⟨pos', label', reason'⟩) (h : reason.same reason' = true) :
    reason = reason' := by
  cases reason with
  | inner t i =>
      cases reason' with
      | inner u j =>
          rw [same, Bool.and_eq_true, beq_iff_eq, beq_iff_eq] at h
          obtain ⟨hid, hlayer⟩ := h
          cases hsel.eq_of_id_eq (hd.inner t i rfl).1 (hd'.inner u j rfl).1 hid
          rw [Fin.ext hlayer]
      | site => cases h
  | site =>
      cases reason' with
      | inner u j => cases h
      | site => rfl

namespace Chart

/-! ## Noted demands -/

/-- Whether what the demand asks for has been opened. -/
structure Meets (c : Chart W) (d : Demand W) : Prop where
  reason : ∀ a ∈ openReason d.label d.pos d.reason c, c.Shows a
  before : ∀ a ∈ openAuxiliary d.label d.pos .left c, c.Shows a

omit [Mul W] in
theorem openReason_congr {c c' : Chart W} (h : c'.selection = c.selection) (label : String)
    (pos : Nat) (reason : Reason W) :
    openReason label pos reason c' = openReason label pos reason c := by
  cases reason with
  | inner t i => rfl
  | site => rw [openReason, openReason, h]

omit [One W] [Mul W] in
theorem openAuxiliary_congr {c c' : Chart W} (h : c'.selection = c.selection) (label : String)
    (pos : Nat) (side : Side) :
    openAuxiliary label pos side c' = openAuxiliary label pos side c := by
  rw [openAuxiliary, openAuxiliary, h]

omit [Mul W] in
theorem Meets.mono {c c' : Chart W} {d : Demand W} (h : c.Meets d) (hext : c.Extends c') :
    c'.Meets d := by
  constructor
  · rw [openReason_congr hext.selection]
    exact fun a ha => hext.shows (h.reason a ha)
  · rw [openAuxiliary_congr hext.selection]
    exact fun a ha => hext.shows (h.before a ha)

def Answered (c : Chart W) : Prop :=
  ∀ d ∈ c.demands, c.Meets d

/-- Whether a phase opens what it demands, or what was not opened for another demand. -/
def Thorough (phase : Phase W) : Prop :=
  ∀ c : Chart W, c.Answered → ∀ d, .note d ∈ phase c →
    (∀ a ∈ openReason d.label d.pos d.reason c, a ∈ phase c) ∧
      ∀ a ∈ openAuxiliary d.label d.pos .left c, a ∈ phase c ∨ c.Shows a

omit [One W] [Mul W] in
theorem mem_demands_foldl_apply {c : Chart W} {as : List (Action W)} {d : Demand W} :
    d ∈ (as.foldl apply c).demands ↔ d ∈ c.demands ∨ .note d ∈ as := by
  induction as generalizing c with
  | nil => simp
  | cons a as ih =>
      rw [List.foldl_cons, ih]
      cases a with
      | add x why => simp [apply, demands_add]
      | note d' => simp [apply, or_assoc]

omit [One W] [Mul W] in
theorem note_notMem_openRoots {trees : List (AnchoredTree W)} {pos : Nat} {d : Demand W} :
    .note d ∉ openRoots trees pos := by
  intro h
  obtain ⟨t, -, -, hlayers, heq⟩ := mem_openRoots.1 h
  cases heq

omit [Mul W] in
theorem note_notMem_openReason {label : String} {pos : Nat} {reason : Reason W} {c : Chart W}
    {d : Demand W} : .note d ∉ openReason label pos reason c := by
  cases reason with
  | inner t i => simp [openReason]
  | site => exact note_notMem_openRoots

omit [Mul W] in
theorem thorough_demand (label : String) (pos : Nat) (reason : Reason W) :
    Thorough (demand label pos reason) := by
  intro c hc d hd
  unfold demand at hd ⊢
  dsimp only at hd ⊢
  split at hd
  · cases hd
  · rename_i hnew
    rw [if_neg hnew]
    have heq : d = ⟨pos, label, reason⟩ := by
      rcases List.mem_append.1 hd with hmem | hmem
      · rcases List.mem_cons.1 hmem with heq | hmem
        · cases heq
          rfl
        · exact absurd hmem note_notMem_openReason
      · split at hmem
        · exact absurd hmem note_notMem_openRoots
        · cases hmem
    subst heq
    refine ⟨fun a ha => List.mem_append_left _ (List.mem_cons_of_mem _ ha), fun a ha => ?_⟩
    cases hknown : c.reasonsAt pos label with
    | nil => exact Or.inl (List.mem_append_right _ ha)
    | cons known rest =>
        -- the left auxiliary trees were opened when the node was first in demand
        have hmem : known ∈ c.reasonsAt pos label := hknown ▸ List.mem_cons_self
        exact Or.inr ((hc _ (mem_reasonsAt.1 hmem)).before a ha)

omit [Mul W] in
theorem thorough_of_notMem {phase : Phase W} (h : ∀ c d, .note d ∉ phase c) : Thorough phase :=
  fun c _ d hd => absurd hd (h c d)

theorem thorough_of_phaseOf {c : Chart W} {x : Item W} {phase : Phase W}
    (h : PhaseOf input c x phase) : Thorough phase := by
  cases h with
  | scan _ =>
      refine thorough_of_notMem fun c d => ?_
      unfold scan
      split <;> simp
  | passFoot _ => exact thorough_of_notMem fun c d => by simp [passFoot]
  | demandInner _ _ => exact thorough_demand _ _ _
  | completeEmpty _ _ =>
      refine thorough_of_notMem fun c d => ?_
      unfold completeEmpty
      split <;> simp
  | demandSite _ => exact thorough_demand _ _ _
  | fillParents _ _ => exact thorough_of_notMem fun c d => by simp [fillParents]
  | fillSites _ _ _ => exact thorough_of_notMem fun c d => by simp [fillSites]
  | openRight _ _ =>
      refine thorough_of_notMem fun c d => ?_
      split
      · exact List.not_mem_nil
      · exact note_notMem_openRoots
  | takeLeft _ _ => exact thorough_of_notMem fun c d => by simp [join]
  | joinRight _ => exact thorough_of_notMem fun c d => by simp [join]
  | demandAgain _ _ => exact thorough_demand _ _ _
  | joinLeft _ => exact thorough_of_notMem fun c d => by simp [join]

theorem answered_run (hsel : sel.Sound) {k : Nat} {c : Chart W} {phase : Phase W}
    (hc : Reached sel starts input c) (hphase : PhaseLicensed sel starts input k c phase)
    (hthorough : Thorough phase) (h : c.Answered) : (c.run phase).Answered := by
  obtain ⟨hstep, hshows⟩ := progress_run hsel hc hphase
  have hext := hstep.extension
  intro d hd
  rcases mem_demands_foldl_apply.1 hd with hold | hnew
  · exact (h d hold).mono hext
  · obtain ⟨hreason, hbefore⟩ := hthorough c h d hnew
    constructor
    · rw [openReason_congr hext.selection]
      exact fun a ha => hshows a (hreason a ha)
    · rw [openAuxiliary_congr hext.selection]
      intro a ha
      rcases hbefore a ha with hmem | hshown
      · exact hshows a hmem
      · exact hext.shows hshown

theorem answered_foldl_run (hsel : sel.Sound) {k : Nat} {c : Chart W} {ps : List (Phase W)}
    (hc : Reached sel starts input c)
    (hps : ∀ phase ∈ ps, PhaseLicensed sel starts input k c phase ∧ Thorough phase)
    (h : c.Answered) : (ps.foldl run c).Answered := by
  induction ps generalizing c with
  | nil => exact h
  | cons phase ps ih =>
      obtain ⟨hlicensed, hthorough⟩ := hps phase List.mem_cons_self
      have hstep := (progress_run hsel hc hlicensed).1
      refine ih hstep.reached (fun p hp => ?_) (answered_run hsel hc hlicensed hthorough h)
      obtain ⟨hp, hp'⟩ := hps p (List.mem_cons_of_mem phase hp)
      exact ⟨hp.mono hstep.extension, hp'⟩

theorem answered_process (hsel : sel.Sound) {c : Chart W} {x : Item W}
    (hc : Reached sel starts input c) (hx : c.Has x) (h : c.Answered) :
    (c.process input x).Answered :=
  answered_foldl_run hsel hc (fun _ hphase => ⟨phaseLicensed_of_mem_phases hsel hc hx hphase,
    thorough_of_phaseOf (mem_phases.1 hphase)⟩) h

omit [Mul W] in
/-- A demand that has been made is noted, by itself or already for the same reason. -/
theorem mem_demands_of_demand (hsel : sel.Sound) {c c' : Chart W} {label : String} {pos : Nat}
    {reason : Reason W} (hd : Demand.Valid sel input.length ⟨pos, label, reason⟩)
    (hinv : c.Inv sel starts input.length) (hext : c.Extends c')
    (hshows : ∀ a ∈ demand label pos reason c, c'.Shows a) :
    ⟨pos, label, reason⟩ ∈ c'.demands := by
  unfold demand at hshows
  dsimp only at hshows
  split at hshows
  · rename_i hknown
    obtain ⟨reason', hmem, hsame⟩ := List.any_eq_true.1 hknown
    have hold := mem_reasonsAt.1 hmem
    rw [Reason.eq_of_same hsel hd (hinv.demands _ hold) hsame]
    exact hext.mem_demands hold
  · exact hshows (.note ⟨pos, label, reason⟩) List.mem_cons_self

/-! ## Demands of items -/

/-- What the turn of an item has put in demand or opened. -/
structure Heard (c : Chart W) (x : Item W) : Prop where
  inner : ∀ label i, x.next? = some ⟨.nonterminal, label⟩ →
    ∀ hi : x.tree.rule.indexOf? x.nextAddress = some i,
      ⟨x.right, label, .inner x.tree ⟨i, Rule.lt_length_of_indexOf? hi⟩⟩ ∈ c.demands
  site : ∀ label, x.next? = some ⟨.substitution, label⟩ → ⟨x.right, label, .site⟩ ∈ c.demands
  behind : ∀ label, isHost label x = true → x.leftAdjoined = false →
    ∀ a ∈ openAuxiliary label x.right .right c, c.Shows a
  again : isFinishedAuxiliary x.tree.root .left x = true →
    ∀ reason, ⟨x.left, x.tree.root, reason⟩ ∈ c.demands →
      ⟨x.right, x.tree.root, reason⟩ ∈ c.demands

omit [One W] [Mul W] in
theorem Heard.renewed {c : Chart W} {x : Item W} {ds : List Derivation}
    (h : c.Heard { x with derivations := ds }) : c.Heard x :=
  ⟨h.inner, h.site, h.behind, h.again⟩

/-- Later turns do not matter: they demand nothing at the left end of an auxiliary tree. -/
theorem Heard.mono {k : Nat} {c c' : Chart W} {x : Item W} (h : c.Heard x)
    (hstep : Progress sel starts input k c c')
    (hleft : isFinishedAuxiliary x.tree.root .left x = true → x.left < k) : c'.Heard x where
  inner label i hnext hi := hstep.extension.mem_demands (h.inner label i hnext hi)
  site label hnext := hstep.extension.mem_demands (h.site label hnext)
  behind label hhost hplain := by
    rw [openAuxiliary_congr hstep.extension.selection]
    exact fun a ha => hstep.extension.shows (h.behind label hhost hplain a ha)
  again haux reason hreason := by
    rcases hstep.growth.demands _ hreason with hold | hpos
    · exact hstep.extension.mem_demands (h.again haux reason hold)
    · exact absurd hpos (Nat.ne_of_lt (hleft haux))

theorem heard_process (hsel : sel.Sound) {c : Chart W} {x : Item W}
    (hc : Reached sel starts input c) (hx : c.Has x)
    (hleft : isFinishedAuxiliary x.tree.root .left x = true → x.left < x.right) :
    (c.process input x).Heard x := by
  have hinv := hc.inv hsel
  have hv := hinv.valid_of_has hx
  obtain ⟨hstep, hphases⟩ := progress_process hsel hc hx
  have hdemand {label : String} {reason : Reason W}
      (hphase : PhaseOf input c x (demand label x.right reason))
      (hd : Demand.Valid sel input.length ⟨x.right, label, reason⟩) :
      ⟨x.right, label, reason⟩ ∈ (c.process input x).demands := by
    obtain ⟨c', hbefore, hbehind, hshows⟩ := hphases _ (mem_phases.2 hphase)
    exact mem_demands_of_demand hsel hd (hbefore.reached.inv hsel) hbehind.extension hshows
  refine ⟨?_, ?_, ?_, ?_⟩
  · intro label i hnext hi
    exact hdemand (.demandInner hnext hi) (demand_valid_inner hsel hv.tree hv.right_le hnext hi)
  · intro label hnext
    exact hdemand (.demandSite hnext) ⟨hv.right_le, by simp⟩
  · intro label hhost hplain
    obtain ⟨e, hlhs, rfl⟩ := Layer.hasLabel_iff.1 (isHost_iff.1 hhost).2.2
    obtain ⟨c', hbefore, -, hshows⟩ := hphases _ (mem_phases.2 (.openRight hhost hlhs))
    rw [hplain, if_neg (by simp)] at hshows
    rw [openAuxiliary_congr hstep.extension.selection,
      ← openAuxiliary_congr hbefore.extension.selection]
    exact hshows
  · intro haux reason hreason
    rcases hstep.growth.demands _ hreason with hold | hpos
    · have hd : Demand.Valid sel input.length ⟨x.right, x.tree.root, reason⟩ :=
        ⟨hv.right_le, (hinv.demands _ hold).inner⟩
      exact hdemand (.demandAgain haux (mem_reasonsAt.2 hold)) hd
    · exact absurd hpos (Nat.ne_of_lt (hleft haux))

/-- What holds of the demands when place `i` of position `k` comes up. -/
structure HeardUpTo (starts : SymbolSet) (k i : Nat) (c : Chart W) : Prop where
  answered : c.Answered
  heard : ∀ x, Done k i c x → c.Heard x
  starts : ∀ symbol ∈ starts.toList, ⟨0, symbol, .site⟩ ∈ c.demands

theorem heardUpTo_seeded (hsel : sel.Sound) :
    HeardUpTo starts 0 0 (seeded sel starts input.length) := by
  have hphases : ∀ phase ∈ starts.toList.map fun symbol => demand symbol 0 .site,
      PhaseLicensed sel starts input 0 (empty sel starts input.length) phase :=
    phaseLicensed_of_mem_starts hsel _ _
  rw [seeded_eq_foldl_run]
  refine ⟨answered_foldl_run hsel .empty (fun phase hmem => ⟨hphases phase hmem, ?_⟩) ?_,
    fun x hx => absurd hx not_done_zero, ?_⟩
  · obtain ⟨symbol, -, rfl⟩ := List.mem_map.1 hmem
    exact thorough_demand symbol 0 .site
  · intro d hd
    simp [empty] at hd
  · intro symbol hsymbol
    obtain ⟨c', hbefore, hbehind, hshows⟩ :=
      (progress_foldl_run hsel .empty hphases).2 _ (List.mem_map_of_mem hsymbol)
    exact mem_demands_of_demand hsel ⟨Nat.zero_le _, by simp⟩ (hbefore.reached.inv hsel)
      hbehind.extension hshows

theorem HeardUpTo.turn (hsel : sel.Sound) (hlex : sel.Lexicalised) {k i : Nat} {c : Chart W}
    {x : Item W} (hc : Reached sel starts input c) (hturn : c.turn k i = some x)
    (h : HeardUpTo starts k i c) : HeardUpTo starts k (i + 1) (c.process input x) := by
  obtain ⟨hx, -, rfl, -⟩ := (hc.inv hsel).filed.of_turn hturn
  have hstep := (progress_process hsel hc hx).1
  have hlt {y : Item W} (hy : c.Has y)
      (haux : isFinishedAuxiliary y.tree.root .left y = true) : y.left < y.right := by
    obtain ⟨hpassive, hroot, -⟩ := isFinishedAuxiliary_iff.1 haux
    exact (hc.means_of_has hsel hy).lt_of_isRootLayer hsel hlex ((hc.inv hsel).valid_of_has hy)
      hpassive hroot
  refine ⟨answered_process hsel hc hx h.answered, ?_, ?_⟩
  · intro y hy
    rcases hy.of_turn hsel hc hturn with hold | ⟨ds, rfl⟩
    · exact (h.heard y hold).mono hstep fun haux =>
        Nat.lt_of_lt_of_le (hlt hold.1 haux) hold.right_le
    · exact (heard_process hsel hc hx (hlt hx)).renewed
  · exact fun symbol hsymbol => hstep.extension.mem_demands (h.starts symbol hsymbol)

end Chart

/-! ## The finished chart -/

structure Chart.Saturated (sel : Selection W) (starts : SymbolSet) (input : List String)
    (c : Chart W) : Prop where
  inv : c.Inv sel starts input.length
  records : ∀ x why, Step input (fun y => y ∈ c.items) x why → c.Records x.key why
  answered : c.Answered
  heard : ∀ x ∈ c.items, c.Heard x
  starts : ∀ symbol ∈ starts.toList, ⟨0, symbol, .site⟩ ∈ c.demands

theorem Grammar.saturated_parse (g : Grammar W) (hlex : g.Lexicalised) (input : List String) :
    (g.parse input).Saturated (g.select input) g.starts input := by
  have hsel := g.sound_select input
  have hheard : Chart.HeardUpTo g.starts (input.length + 1) 0 (g.parse input) :=
    Chart.ofSelection_induction hsel (Chart.heardUpTo_seeded hsel)
      (fun k i c x hc hturn h => h.turn hsel (hlex.select input) hc hturn)
      (fun k c hc h => ⟨h.answered, fun x hx => h.heard x (hx.of_next (hc.inv hsel).filed),
        h.starts⟩)
  exact ⟨(g.reached_parse input).inv hsel,
    fun x why h => g.closedUpTo_parse hlex input x why (h.mono fun y => g.done_of_mem_parse),
    hheard.answered, fun x hx => hheard.heard x (g.done_of_mem_parse hx), hheard.starts⟩

end TreeInsertion
