import TreeInsertion.Chart.Parse
import TreeInsertion.Proofs.Chart.Phases

/-!
# The log of an analysis

The log lists the actions of an analysis in their order, and its beginnings lead to
the charts that the analysis goes through.  Every one of them is reached by licensed
actions.
-/

namespace TreeInsertion

namespace Chart

variable {W : Type}

/-! ## Runs of licensed actions -/

section Runs

variable [One W] [Mul W] {sel : Selection W} {starts : SymbolSet} {input : List String}

/-- The longer chart is reached too, and differs at the positions `k` and `k + 1` only. -/
structure Progress (sel : Selection W) (starts : SymbolSet) (input : List String) (k : Nat)
    (c c' : Chart W) : Prop where
  reached : Reached sel starts input c'
  extension : c.Extends c'
  growth : GrowsAt k c c'

namespace Progress

variable {k : Nat} {c c' c'' : Chart W}

theorem refl (hc : Reached sel starts input c) : Progress sel starts input k c c :=
  ⟨hc, .refl c, .refl k c⟩

theorem trans (h : Progress sel starts input k c c') (h' : Progress sel starts input k c' c'') :
    Progress sel starts input k c c'' :=
  ⟨h'.reached, h.extension.trans h'.extension, h.growth.trans h'.growth⟩

end Progress

theorem LicensedAt.mono {k : Nat} {c c' : Chart W} {a : Action W}
    (h : LicensedAt sel input k c a) (hext : c.Extends c') : LicensedAt sel input k c' a :=
  ⟨h.1.mono hext, h.2⟩

theorem progress_apply (hsel : sel.Sound) {k : Nat} {c : Chart W} {a : Action W}
    (hc : Reached sel starts input c) (ha : LicensedAt sel input k c a) :
    Progress sel starts input k c (c.apply a) := by
  have hfits := (hc.inv hsel).fits_of_licensed hsel ha.1
  exact ⟨hc.apply ha.1, extends_apply hfits, growsAt_apply hfits ha.2⟩

/-- Licensed actions one after the other: each of them shows its effect in the end. -/
theorem progress_foldl_apply (hsel : sel.Sound) {k : Nat} {c : Chart W} {as : List (Action W)}
    (hc : Reached sel starts input c) (has : ∀ a ∈ as, LicensedAt sel input k c a) :
    Progress sel starts input k c (as.foldl apply c) ∧ ∀ a ∈ as, (as.foldl apply c).Shows a := by
  induction as generalizing c with
  | nil => exact ⟨.refl hc, by simp⟩
  | cons a as ih =>
      have hstep := progress_apply hsel hc (has a List.mem_cons_self)
      have hlater : ∀ b ∈ as, LicensedAt sel input k (c.apply a) b := fun b hb =>
        (has b (List.mem_cons_of_mem a hb)).mono hstep.extension
      obtain ⟨hrest, hshows⟩ := ih hstep.reached hlater
      refine ⟨hstep.trans hrest, ?_⟩
      intro b hb
      rcases List.mem_cons.1 hb with rfl | hb
      · exact hrest.extension.shows (hc.inv hsel).filed.shows_apply
      · exact hshows b hb

/-- Whether a phase does licensed things only, whatever was done since the chart `c`. -/
def PhaseLicensed (sel : Selection W) (starts : SymbolSet) (input : List String) (k : Nat)
    (c : Chart W) (phase : Phase W) : Prop :=
  ∀ c', Reached sel starts input c' → c.Extends c' →
    ∀ a ∈ phase c', LicensedAt sel input k c' a

theorem PhaseLicensed.mono {k : Nat} {c c' : Chart W} {phase : Phase W}
    (h : PhaseLicensed sel starts input k c phase) (hext : c.Extends c') :
    PhaseLicensed sel starts input k c' phase :=
  fun c'' hc'' hext' => h c'' hc'' (hext.trans hext')

theorem progress_run (hsel : sel.Sound) {k : Nat} {c : Chart W} {phase : Phase W}
    (hc : Reached sel starts input c) (hphase : PhaseLicensed sel starts input k c phase) :
    Progress sel starts input k c (c.run phase) ∧ ∀ a ∈ phase c, (c.run phase).Shows a :=
  progress_foldl_apply hsel hc (hphase c hc (.refl c))

/-- Phases one after the other: each of them has looked at some chart on the way. -/
theorem progress_foldl_run (hsel : sel.Sound) {k : Nat} {c : Chart W} {ps : List (Phase W)}
    (hc : Reached sel starts input c)
    (hps : ∀ phase ∈ ps, PhaseLicensed sel starts input k c phase) :
    Progress sel starts input k c (ps.foldl run c) ∧
      ∀ phase ∈ ps, ∃ c', Progress sel starts input k c c' ∧
        Progress sel starts input k c' (ps.foldl run c) ∧
          ∀ a ∈ phase c', (ps.foldl run c).Shows a := by
  induction ps generalizing c with
  | nil => exact ⟨.refl hc, by simp⟩
  | cons phase ps ih =>
      obtain ⟨hstep, hshows⟩ := progress_run hsel hc (hps phase List.mem_cons_self)
      obtain ⟨hrest, hlater⟩ := ih hstep.reached fun p hp =>
        (hps p (List.mem_cons_of_mem phase hp)).mono hstep.extension
      refine ⟨hstep.trans hrest, ?_⟩
      intro p hp
      rcases List.mem_cons.1 hp with rfl | hp
      · exact ⟨c, .refl hc, hstep.trans hrest, fun a ha => hrest.extension.shows (hshows a ha)⟩
      · obtain ⟨c', hbefore, hbehind, hp⟩ := hlater p hp
        exact ⟨c', hstep.trans hbefore, hbehind, hp⟩

theorem phaseLicensed_of_mem_phases (hsel : sel.Sound) {c : Chart W} {x : Item W}
    (hc : Reached sel starts input c) (hx : c.Has x) {phase : Phase W}
    (hphase : phase ∈ phases input c x) : PhaseLicensed sel starts input x.right c phase :=
  fun _ hc' hext _ ha => licensedAt_of_mem_phases hsel (hc.inv hsel).demands (hc'.inv hsel)
    (hext.has hx) hphase ha

/-- The demands for the start symbols, with which an analysis begins. -/
theorem phaseLicensed_of_mem_starts (hsel : sel.Sound) (c : Chart W) (symbols : List String) :
    ∀ phase ∈ symbols.map fun symbol => demand symbol 0 .site,
      PhaseLicensed sel starts input 0 c phase := by
  intro phase hphase c' hc' _ a ha
  obtain ⟨symbol, -, rfl⟩ := List.mem_map.1 hphase
  exact licensedAt_demand hsel (hc'.inv hsel).selection ⟨Nat.zero_le _, by simp⟩ ha

/-- Processing an item: each of its phases has looked at some chart on the way. -/
theorem progress_process (hsel : sel.Sound) {c : Chart W} {x : Item W}
    (hc : Reached sel starts input c) (hx : c.Has x) :
    Progress sel starts input x.right c (c.process input x) ∧
      ∀ phase ∈ phases input c x, ∃ c', Progress sel starts input x.right c c' ∧
        Progress sel starts input x.right c' (c.process input x) ∧
          ∀ a ∈ phase c', (c.process input x).Shows a :=
  progress_foldl_run hsel hc fun _ hphase => phaseLicensed_of_mem_phases hsel hc hx hphase

end Runs

/-! ## The log -/

def phasesLog (c : Chart W) : List (Phase W) → List (Action W)
  | [] => []
  | phase :: ps => phase c ++ (c.run phase).phasesLog ps

theorem foldl_phasesLog (c : Chart W) (ps : List (Phase W)) :
    (c.phasesLog ps).foldl apply c = ps.foldl run c := by
  induction ps generalizing c with
  | nil => rfl
  | cons phase ps ih =>
      rw [phasesLog, List.foldl_append, List.foldl_cons]
      exact ih (c.run phase)

section Log

variable [One W] [Mul W]

def processFromLog (input : List String) (k : Nat) : Nat → Nat → Chart W → List (Action W)
  | 0, _, _ => []
  | rounds + 1, i, c =>
      match (c.idsAt k)[i]?.bind fun id => c.items[id]? with
      | none => []
      | some x =>
          c.phasesLog (phases input c x) ++
            processFromLog input k rounds (i + 1) (c.process input x)

/-- The item at place `i` among those that end at `k`. -/
def turn (c : Chart W) (k i : Nat) : Option (Item W) :=
  (c.idsAt k)[i]?.bind fun id => c.items[id]?

theorem processFrom_of_none {input : List String} {k i : Nat} {c : Chart W}
    (h : c.turn k i = none) (rounds : Nat) :
    processFrom input k rounds i c = c ∧ processFromLog input k rounds i c = [] := by
  unfold turn at h
  cases rounds with
  | zero => exact ⟨rfl, rfl⟩
  | succ rounds => simp [processFrom, processFromLog, h]

theorem processFrom_of_some {input : List String} {k i : Nat} {c : Chart W} {x : Item W}
    (h : c.turn k i = some x) (rounds : Nat) :
    processFrom input k (rounds + 1) i c =
        processFrom input k rounds (i + 1) (c.process input x) ∧
      processFromLog input k (rounds + 1) i c =
        c.phasesLog (phases input c x) ++
          processFromLog input k rounds (i + 1) (c.process input x) := by
  unfold turn at h
  simp [processFrom, processFromLog, h]

theorem foldl_processFromLog (input : List String) (k rounds i : Nat) (c : Chart W) :
    (processFromLog input k rounds i c).foldl apply c = processFrom input k rounds i c := by
  induction rounds generalizing i c with
  | zero => rfl
  | succ rounds ih =>
      cases hturn : c.turn k i with
      | none =>
          rw [(processFrom_of_none hturn _).1, (processFrom_of_none hturn _).2, List.foldl_nil]
      | some x =>
          rw [(processFrom_of_some hturn _).1, (processFrom_of_some hturn _).2, List.foldl_append,
            foldl_phasesLog]
          exact ih (i + 1) _

def setsLog (input : List String) : List Nat → Chart W → List (Action W)
  | [], _ => []
  | k :: ks, c => processFromLog input k c.capacity 0 c ++ setsLog input ks (processSet input c k)

theorem foldl_setsLog (input : List String) (ks : List Nat) (c : Chart W) :
    (setsLog input ks c).foldl apply c = ks.foldl (processSet input) c := by
  induction ks generalizing c with
  | nil => rfl
  | cons k ks ih =>
      rw [setsLog, List.foldl_append, foldl_processFromLog, List.foldl_cons]
      exact ih (processSet input c k)

def log (selection : Selection W) (starts : SymbolSet) (input : List String) : List (Action W) :=
  phasesLog (empty selection starts input.length)
      (starts.toList.map fun symbol => demand symbol 0 .site) ++
    setsLog input (List.range (input.length + 1)) (seeded selection starts input.length)

omit [Mul W] in
theorem seeded_eq_foldl_run (selection : Selection W) (starts : SymbolSet) (n : Nat) :
    seeded selection starts n =
      (starts.toList.map fun symbol => demand symbol 0 .site).foldl run
        (empty selection starts n) := by
  rw [seeded, List.foldl_map]

theorem foldl_log (selection : Selection W) (starts : SymbolSet) (input : List String) :
    (log selection starts input).foldl apply (empty selection starts input.length) =
      ofSelection selection starts input := by
  rw [log, List.foldl_append, foldl_phasesLog, ← seeded_eq_foldl_run, foldl_setsLog, ofSelection]

/-! ## Moments -/

/-- Whether a property holds of all charts on the way. -/
def Throughout (P : Chart W → Prop) (c : Chart W) (as : List (Action W)) : Prop :=
  ∀ m, P ((as.take m).foldl apply c)

omit [One W] [Mul W] in
theorem Throughout.append {P : Chart W → Prop} {c : Chart W} {as bs : List (Action W)}
    (has : Throughout P c as) (hbs : Throughout P (as.foldl apply c) bs) :
    Throughout P c (as ++ bs) := by
  intro m
  rw [List.take_append, List.foldl_append]
  rcases Nat.le_total m as.length with hle | hle
  · rw [Nat.sub_eq_zero_of_le hle, List.take_zero]
    exact has m
  · rw [List.take_of_length_le hle]
    exact hbs (m - as.length)

variable {sel : Selection W} {starts : SymbolSet} {input : List String}

theorem reached_phasesLog (hsel : sel.Sound) {k : Nat} {c : Chart W} {ps : List (Phase W)}
    (hc : Reached sel starts input c)
    (hps : ∀ phase ∈ ps, PhaseLicensed sel starts input k c phase) :
    Throughout (Reached sel starts input) c (c.phasesLog ps) := by
  induction ps generalizing c with
  | nil => simpa [Throughout, phasesLog] using hc
  | cons phase ps ih =>
      have hphase := hps phase List.mem_cons_self
      have hstep := (progress_run hsel hc hphase).1
      refine Throughout.append (fun m => ?_) (ih hstep.reached fun p hp =>
        (hps p (List.mem_cons_of_mem phase hp)).mono hstep.extension)
      exact (progress_foldl_apply hsel hc fun a ha =>
        hphase c hc (.refl c) a (List.mem_of_mem_take ha)).1.reached

omit [One W] [Mul W] in
/-- The item whose turn it is stands in the chart and ends at the position. -/
theorem Filed.of_turn {c : Chart W} (h : c.Filed) {k i : Nat} {x : Item W}
    (hturn : c.turn k i = some x) :
    c.Has x ∧ x ∈ c.items ∧ x.right = k ∧ (c.idsAt k)[i]? = some x.id := by
  obtain ⟨id, hid, hx⟩ := Option.bind_eq_some_iff.1 hturn
  obtain ⟨y, hy, hright⟩ := h.sets.1 (List.mem_of_getElem? hid)
  rw [hx] at hy
  cases hy
  have hmem := Array.mem_of_getElem? hx
  exact ⟨h.has_of_mem hmem, hmem, hright, by rw [h.id_eq hx, hid]⟩

theorem reached_processFromLog (k rounds i : Nat) (hsel : sel.Sound) {c : Chart W}
    (hc : Reached sel starts input c) :
    Throughout (Reached sel starts input) c (processFromLog input k rounds i c) := by
  induction rounds generalizing i c with
  | zero => simpa [Throughout, processFromLog] using hc
  | succ rounds ih =>
      cases hturn : c.turn k i with
      | none =>
          rw [(processFrom_of_none hturn _).2]
          simpa [Throughout] using hc
      | some x =>
          rw [(processFrom_of_some hturn _).2]
          have hx := ((hc.inv hsel).filed.of_turn hturn).1
          refine Throughout.append (reached_phasesLog hsel hc fun _ hphase =>
            phaseLicensed_of_mem_phases hsel hc hx hphase) ?_
          rw [foldl_phasesLog]
          exact ih _ (progress_process hsel hc hx).1.reached

omit [One W] [Mul W] in
theorem Throughout.last {P : Chart W → Prop} {c : Chart W} {as : List (Action W)}
    (h : Throughout P c as) : P (as.foldl apply c) := by
  simpa using h as.length

theorem reached_setsLog (hsel : sel.Sound) {ks : List Nat} {c : Chart W}
    (hc : Reached sel starts input c) :
    Throughout (Reached sel starts input) c (setsLog input ks c) := by
  induction ks generalizing c with
  | nil => simpa [Throughout, setsLog] using hc
  | cons k ks ih =>
      have hset := reached_processFromLog k c.capacity 0 hsel hc
      refine Throughout.append hset ?_
      rw [foldl_processFromLog]
      exact ih (foldl_processFromLog input k c.capacity 0 c ▸ hset.last)

theorem reached_log (hsel : sel.Sound) :
    Throughout (Reached sel starts input) (empty sel starts input.length)
      (log sel starts input) := by
  have hseed : Throughout (Reached sel starts input) (empty sel starts input.length)
      (phasesLog (empty sel starts input.length)
        (starts.toList.map fun symbol => demand symbol 0 .site)) :=
    reached_phasesLog hsel .empty (phaseLicensed_of_mem_starts hsel _ _)
  refine hseed.append ?_
  rw [foldl_phasesLog, ← seeded_eq_foldl_run]
  refine reached_setsLog hsel ?_
  rw [seeded_eq_foldl_run, ← foldl_phasesLog]
  exact hseed.last

end Log

end Chart

namespace Grammar

variable {W : Type} [One W] [Mul W]

/-- The chart after the first `m` actions of the analysis of an input. -/
def moment (g : Grammar W) (input : List String) (m : Nat) : Chart W :=
  ((Chart.log (g.select input) g.starts input).take m).foldl Chart.apply
    (.empty (g.select input) g.starts input.length)

/-- The last moment is the finished chart. -/
theorem exists_moment_eq_parse (g : Grammar W) (input : List String) :
    ∃ m, ∀ m', m ≤ m' → g.moment input m' = g.parse input := by
  refine ⟨(Chart.log (g.select input) g.starts input).length, ?_⟩
  intro m' hm'
  rw [moment, List.take_of_length_le hm']
  exact Chart.foldl_log _ _ _

theorem reached_moment (g : Grammar W) (input : List String) (m : Nat) :
    Chart.Reached (g.select input) g.starts input (g.moment input m) :=
  Chart.reached_log (g.sound_select input) m

theorem reached_parse (g : Grammar W) (input : List String) :
    Chart.Reached (g.select input) g.starts input (g.parse input) := by
  obtain ⟨m, hm⟩ := g.exists_moment_eq_parse input
  exact hm m (Nat.le_refl m) ▸ g.reached_moment input m

end Grammar

end TreeInsertion
