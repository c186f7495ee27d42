import TreeInsertion.Proofs.Candidates
import TreeInsertion.Proofs.Chart.Recognition

/-!
# The order of the rules

Another order of the rules gives the trees other numbers, and nothing that a tree reads
depends on them.  If every tree has a word, the chart accepts just what is read, so the
order does not matter.  It does where a tree covers nothing: such a tree is not found
again by a site that demands it after it was finished.
-/

namespace TreeInsertion

variable {W : Type}

/-! ## Trees under other numbers -/

/-- Whether two trees, each of its own selection, differ in nothing but the number. -/
structure Twins (sel sel' : Selection W) (t t' : AnchoredTree W) : Prop where
  mem : t ∈ sel.trees
  mem' : t' ∈ sel'.trees
  place : t'.place = t.place

/-- Whether every tree of one selection has a twin in another one, and not by chance. -/
structure Selection.Renumbers (sel sel' : Selection W) : Prop where
  sound : sel'.Sound
  exists_place : ∀ t ∈ sel.trees, ∃ t' ∈ sel'.trees, t'.place = t.place
  eq_of_place : ∀ t ∈ sel.trees, ∀ u ∈ sel.trees, t.place = u.place → t = u

namespace Twins

variable {sel sel' : Selection W} {t t' u u' : AnchoredTree W}

theorem rule (h : Twins sel sel' t t') : t'.rule = t.rule :=
  congrArg (fun p => p.1) h.place

theorem anchorPos (h : Twins sel sel' t t') : t'.anchorPos = t.anchorPos :=
  congrArg (fun p => p.2.1) h.place

theorem root (h : Twins sel sel' t t') : t'.root = t.root :=
  congrArg (fun p => p.2.2) h.place

theorem isInitial (h : Twins sel sel' t t') : t'.isInitial = t.isInitial := by
  rw [AnchoredTree.isInitial, AnchoredTree.isInitial, h.rule]

theorem side? (h : Twins sel sel' t t') : t'.side? = t.side? := by
  rw [AnchoredTree.side?, AnchoredTree.side?, h.rule]

theorem mayRead (h : Twins sel sel' t t') (word : String) (pos : Nat) :
    t'.mayRead word pos = t.mayRead word pos := by
  rw [AnchoredTree.mayRead, AnchoredTree.mayRead, AnchoredTree.anchorEnd, AnchoredTree.anchorEnd,
    h.rule, h.anchorPos]

theorem mayStart (h : Twins sel sel' t t') {pos : Nat} (hstart : t.MayStart pos) :
    t'.MayStart pos := by
  rw [AnchoredTree.MayStart, h.anchorPos]
  exact hstart

/-- The twins of different trees have different numbers. -/
theorem id_ne (hsel : sel.Renumbers sel') (ht : Twins sel sel' t t') (hu : Twins sel sel' u u')
    (hne : t.id ≠ u.id) : t'.id ≠ u'.id := by
  intro heq
  cases hsel.sound.eq_of_id_eq ht.mem' hu.mem' heq
  have hplace := ht.place.symm.trans hu.place
  exact hne (congrArg AnchoredTree.id (hsel.eq_of_place t ht.mem u hu.mem hplace))

end Twins

theorem Selection.Renumbers.exists_twin {sel sel' : Selection W} (h : sel.Renumbers sel')
    {t : AnchoredTree W} (ht : t ∈ sel.trees) : ∃ t', Twins sel sel' t t' := by
  obtain ⟨t', ht', hplace⟩ := h.exists_place t ht
  exact ⟨t', ht, ht', hplace⟩

namespace Reading

variable {sel sel' : Selection W} {input : List String}

mutual

theorem BeforeDot.twin (hsel : sel.Renumbers sel') {t t' : AnchoredTree W} {l : Layer}
    {d i j : Nat} (ht : Twins sel sel' t t') :
    BeforeDot sel input AnchoredTree.MayStart t l d i j →
      BeforeDot sel' input AnchoredTree.MayStart t' l d i j
  | .start => .start
  | .word before hentry hread hword =>
      .word (before.twin hsel ht) hentry ((ht.mayRead _ _).trans hread) hword
  | .foot before hentry => .foot (before.twin hsel ht) hentry
  | .inner before hentry hlayer node =>
      .inner (before.twin hsel ht) hentry (ht.rule.symm ▸ hlayer) (node.twin hsel ht)
  | .site before hentry hu hinitial hother hroot node => by
      obtain ⟨u', hu'⟩ := hsel.exists_twin hu
      exact .site (before.twin hsel ht) (hu'.root.symm ▸ hentry) hu'.mem'
        (hu'.isInitial.trans hinitial) (ht.id_ne hsel hu' hother) (hu'.rule.symm ▸ hroot)
        (node.twin hsel hu')

theorem Bare.twin (hsel : sel.Renumbers sel') {t t' : AnchoredTree W} {l : Layer} {i j : Nat}
    (ht : Twins sel sel' t t') :
    Bare sel input AnchoredTree.MayStart t l i j → Bare sel' input AnchoredTree.MayStart t' l i j
  | .mk hstart all => .mk (fun hroot => ht.mayStart (hstart hroot)) (all.twin hsel ht)

theorem Row.twin (hsel : sel.Renumbers sel') {side : Side} {label : String} {i j : Nat} :
    Row sel input AnchoredTree.MayStart side label i j →
      Row sel' input AnchoredTree.MayStart side label i j
  | .nil => .nil
  | .cons hu hside hroot tree rest => by
      obtain ⟨u', hu'⟩ := hsel.exists_twin hu
      have hrest := rest.twin hsel
      rw [← hu'.root] at hrest ⊢
      exact .cons hu'.mem' (hu'.side?.trans hside) (hu'.rule.symm ▸ hroot)
        (tree.twin hsel hu') hrest

/-- What a tree reads does not depend on the numbers of the trees. -/
theorem Full.twin (hsel : sel.Renumbers sel') {t t' : AnchoredTree W} {l : Layer} {i j : Nat}
    (ht : Twins sel sel' t t') :
    Full sel input AnchoredTree.MayStart t l i j → Full sel' input AnchoredTree.MayStart t' l i j
  | .mk hlhs before node behind =>
      .mk hlhs (before.twin hsel) (node.twin hsel ht) (behind.twin hsel)

end

end Reading

namespace Grammar

/-! ## Lists of rules that make a grammar -/

theorem checkRules_eq_ok {seen : List Nat} {rules : List (Rule W)}
    (h : ∀ r ∈ rules, r.WellFormed ∧ r.index ∉ seen) (hnodup : (rules.map Rule.index).Nodup) :
    checkRules seen rules = .ok () := by
  induction rules generalizing seen with
  | nil => rfl
  | cons r rest ih =>
      obtain ⟨⟨hr, hseen⟩, hrest⟩ := List.forall_mem_cons.1 h
      obtain ⟨hnew, hnodup⟩ := List.nodup_cons.1 hnodup
      have hlater : ∀ s ∈ rest, s.WellFormed ∧ s.index ∉ r.index :: seen := by
        intro s hs
        refine ⟨(hrest s hs).1, fun hmem => ?_⟩
        rcases List.mem_cons.1 hmem with heq | hmem
        · exact hnew (heq ▸ List.mem_map_of_mem hs)
        · exact (hrest s hs).2 hmem
      rw [checkRules, show r.check = .ok () from hr]
      exact (if_neg hseen).trans (ih hlater hnodup)

theorem ofRules_eq_ok (g : Grammar W) : ofRules g.rules g.starts = .ok g := by
  have hok : checkRules [] g.rules = .ok () :=
    checkRules_eq_ok (fun r hr => ⟨g.wellFormed r hr, by simp⟩) g.distinct
  unfold ofRules
  split
  · rename_i d hd
    rw [hok] at hd
    cases hd
  · rfl

theorem rules_of_ofRules {rules : List (Rule W)} {starts : SymbolSet} {g : Grammar W}
    (h : ofRules rules starts = .ok g) : g.rules = rules ∧ g.starts = starts := by
  unfold ofRules at h
  split at h
  · cases h
  · cases h
    exact ⟨rfl, rfl⟩

/-- A list of rules is accepted in any order. -/
theorem exists_ofRules_of_perm {rules rules' : List (Rule W)} (hperm : rules.Perm rules')
    {starts : SymbolSet} {g : Grammar W} (hg : ofRules rules starts = .ok g) :
    ∃ g', ofRules rules' starts = .ok g' ∧ g.rules.Perm g'.rules ∧ g'.starts = g.starts := by
  obtain ⟨rfl, rfl⟩ := rules_of_ofRules hg
  exact ⟨_, ofRules_eq_ok ⟨rules', g.starts, fun r hr => g.wellFormed r (hperm.mem_iff.2 hr),
    (hperm.map Rule.index).nodup g.distinct⟩, hperm, rfl⟩

/-! ## Acceptance -/

theorem renumbers_of_perm {g g' : Grammar W} (h : g.rules.Perm g'.rules) (input : List String) :
    (g.select input).Renumbers (g'.select input) where
  sound := g'.sound_select input
  exists_place t ht := by
    have hplace := (perm_place h input).mem_iff.1 (List.mem_map_of_mem ht)
    exact List.mem_map.1 hplace
  eq_of_place t ht u hu := List.inj_on_of_nodup_map (g.nodup_place input) ht hu

theorem reads_of_perm {g g' : Grammar W} (h : g.rules.Perm g'.rules)
    (hstarts : g'.starts = g.starts) {input : List String}
    (hreads : g.Reads input AnchoredTree.MayStart) :
    g'.Reads input AnchoredTree.MayStart := by
  have hsel := renumbers_of_perm h input
  obtain ⟨t, ht, hinitial, hstart, l, hl, hfull⟩ := hreads
  obtain ⟨t', htwins⟩ := hsel.exists_twin ht
  refine ⟨t', htwins.mem', htwins.isInitial.trans hinitial, ?_, l, htwins.rule.symm ▸ hl,
    hfull.twin hsel htwins⟩
  rw [hstarts, htwins.root]
  exact hstart

theorem Lexicalised.perm {g g' : Grammar W} (hlex : g.Lexicalised) (h : g.rules.Perm g'.rules) :
    g'.Lexicalised :=
  fun r hr => hlex r (h.mem_iff.2 hr)

variable [One W] [Mul W]

theorem accepts_of_reads {g : Grammar W} (hlex : g.Lexicalised) {input : List String}
    (h : g.Reads input AnchoredTree.MayStart) : (g.parse input).accepts = true := by
  have hsel := g.sound_select input
  have hc := g.saturated_parse hlex input
  obtain ⟨t, ht, hinitial, hstart, l, hl, hfull⟩ := h
  obtain ⟨adjoined, hfinds⟩ := Chart.finds_of_full hc hsel ht (List.mem_of_mem_head? hl)
    (Or.inl hinitial) (hsel.hasLabel_of_head? ht hl) hfull
    (hc.starts t.root (List.contains_iff_mem.1 hstart)) fun _ => ⟨ht, hinitial, rfl, hl⟩
  exact (Chart.accepts_iff_finds hsel hc.inv).2 ⟨t, ht, hinitial, hstart, l, hl, adjoined, hfinds⟩

/--
If every rule with anchors has a word on a right-hand side, the rules make a grammar in
any order, and it accepts the same inputs.
-/
theorem accepts_parse_of_perm {rules rules' : List (Rule W)} (hperm : rules.Perm rules')
    {starts : SymbolSet} {g : Grammar W} (hg : ofRules rules starts = .ok g)
    (hlex : g.Lexicalised) :
    ∃ g', ofRules rules' starts = .ok g' ∧
      ∀ input, (g'.parse input).accepts = (g.parse input).accepts := by
  obtain ⟨g', hg', hrules, hstarts⟩ := exists_ofRules_of_perm hperm hg
  refine ⟨g', hg', fun input => ?_⟩
  rw [Bool.eq_iff_iff]
  constructor
  · intro haccepts
    exact accepts_of_reads hlex (reads_of_perm hrules.symm hstarts.symm (reads_of_accepts haccepts))
  · intro haccepts
    exact accepts_of_reads (hlex.perm hrules)
      (reads_of_perm hrules hstarts (reads_of_accepts haccepts))

theorem accepts_noun_with_adjective_reversed :
    adjectives.Lexicalised ∧ ∃ g', ofRules adjectives.rules.reverse adjectives.starts = .ok g' ∧
      (g'.parse ["big", "dog"]).accepts = true := by
  have hlex : adjectives.Lexicalised := by decide
  obtain ⟨g', hg', haccepts⟩ := accepts_parse_of_perm (List.reverse_perm adjectives.rules).symm
    (ofRules_eq_ok adjectives) hlex
  refine ⟨hlex, g', hg', ?_⟩
  rw [haccepts]
  decide +kernel

/-- A tree that covers nothing is demanded by the first tree, and by the fourth one late. -/
def lateDemand : Grammar Nat :=
  ⟨[⟨0, [⟨⟨[0]⟩, [⟨.nonterminal, "S"⟩, ⟨.substitution, "X"⟩, ⟨.terminal, "z"⟩]⟩], ["a"], 1, 1,
      none⟩,
    ⟨1, [⟨⟨[0]⟩, [⟨.nonterminal, "S"⟩, ⟨.substitution, "Q"⟩, ⟨.terminal, "a"⟩]⟩], ["a"], 1, 1,
      none⟩,
    ⟨2, [⟨⟨[0]⟩, [⟨.nonterminal, "Q"⟩, ⟨.substitution, "R"⟩]⟩], ["a"], 1, 1, none⟩,
    ⟨3, [⟨⟨[0]⟩, [⟨.nonterminal, "R"⟩, ⟨.substitution, "X"⟩]⟩], ["a"], 1, 1, none⟩,
    ⟨4, [⟨⟨[0]⟩, [⟨.nonterminal, "X"⟩]⟩], ["a"], 1, 1, none⟩],
    SymbolSet.ofList ["S"], by decide, by decide⟩

/-- The same rules, the second one first. -/
def earlyDemand : Grammar Nat :=
  ⟨lateDemand.rules[1] :: lateDemand.rules[0] :: lateDemand.rules.drop 2, lateDemand.starts,
    by decide, by decide⟩

theorem accepts_in_one_order_only :
    ofRules lateDemand.rules lateDemand.starts = .ok lateDemand ∧
      ofRules earlyDemand.rules lateDemand.starts = .ok earlyDemand ∧
      lateDemand.rules.Perm earlyDemand.rules ∧
      (lateDemand.parse ["a"]).accepts = false ∧ (earlyDemand.parse ["a"]).accepts = true :=
  ⟨ofRules_eq_ok lateDemand, ofRules_eq_ok earlyDemand, .swap _ _ _, by decide +kernel,
    by decide +kernel⟩

end Grammar

end TreeInsertion
