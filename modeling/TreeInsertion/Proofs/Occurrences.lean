import Mathlib.Data.List.Forall2
import TreeInsertion.Proofs.Candidates

/-!
# Where rules occur

A rule of a lexicon occurs at a position of the input if it has a root symbol and its
anchors, of which there are some, stand there.  The selection has one tree for each
occurrence.  They come by positions, at one position by the number of the anchors, and for
the same anchors in the order in which the rules were added.
-/

namespace TreeInsertion

variable {W : Type}

structure Occurrence where
  pos : Nat
  place : Nat

namespace Occurrence

/-- Whether the rule at the place has a root symbol and stands at the position with its anchors. -/
def IsIn (o : Occurrence) (rules : List (Rule W)) (input : List String) : Prop :=
  ∃ r root, rules[o.place]? = some r ∧ r.rootSymbol = .ok root ∧ r.anchors ≠ [] ∧
    r.anchors <+: input.drop o.pos

def width (o : Occurrence) (rules : List (Rule W)) : Nat :=
  (rules[o.place]?.map fun r => r.anchors.length).getD 0

/-- By positions, then by the number of the words, then by places. -/
def Before (rules : List (Rule W)) (o p : Occurrence) : Prop :=
  o.pos < p.pos ∨ o.pos = p.pos ∧
    (o.width rules < p.width rules ∨ o.width rules = p.width rules ∧ o.place < p.place)

/-- Whether the tree is the rule at the place, at the position, under its root symbol. -/
def Gives (rules : List (Rule W)) (o : Occurrence) (t : AnchoredTree W) : Prop :=
  rules[o.place]? = some t.rule ∧ t.rule.rootSymbol = .ok t.root ∧ t.anchorPos = o.pos

end Occurrence

namespace Selection

/-! ## The candidates with their places -/

/-- The candidates on `m + 1` words from a position on, each with its place among the rules. -/
def placedWith (rules : List (Rule W)) (input : List String) (pos m : Nat) :
    List (Occurrence × Rule W × String) :=
  (rules.zipIdx.filter fun p => p.1.anchors = (input.drop pos).take (m + 1) ∧
    (input.drop pos).take (m + 1) ≠ []).filterMap fun (r, place) =>
      r.rootSymbol.toOption.map fun root => (⟨pos, place⟩, r, root)

def placed (rules : List (Rule W)) (input : List String) : List (Occurrence × Rule W × String) :=
  (List.range input.length).flatMap fun pos =>
    (List.range (input.drop pos).length).flatMap (placedWith rules input pos)

theorem map_placedWith (rules : List (Rule W)) (input : List String) (pos m : Nat) :
    (placedWith rules input pos m).map Prod.snd = rulesWith rules (input.drop pos) m := by
  have hrules : rules.filter (fun r => r.anchors = (input.drop pos).take (m + 1) ∧
      (input.drop pos).take (m + 1) ≠ []) =
        (rules.zipIdx.filter fun p => p.1.anchors = (input.drop pos).take (m + 1) ∧
          (input.drop pos).take (m + 1) ≠ []).map Prod.fst := by
    conv_lhs => rw [← List.zipIdx_map_fst 0 rules, List.filter_map]
    rfl
  rw [rulesWith, hrules, List.filterMap_map, placedWith, List.map_filterMap]
  simp only [Option.map_map, Function.comp_def]

theorem mem_placedWith {rules : List (Rule W)} {input : List String} {pos m : Nat}
    {o : Occurrence} {r : Rule W} {root : String} :
    (o, r, root) ∈ placedWith rules input pos m ↔
      o.pos = pos ∧ rules[o.place]? = some r ∧ r.rootSymbol = .ok root ∧
        r.anchors = (input.drop pos).take (m + 1) ∧ r.anchors ≠ [] := by
  simp only [placedWith, List.mem_filterMap, List.mem_filter, decide_eq_true_eq,
    Option.map_eq_some_iff, Prod.exists, List.mem_zipIdx_iff_getElem?, rootSymbol_eq_ok_iff]
  constructor
  · rintro ⟨r, place, ⟨hplace, hanchors, hne⟩, root, hroot, heq⟩
    cases heq
    exact ⟨rfl, hplace, hroot, hanchors, hanchors ▸ hne⟩
  · rintro ⟨rfl, hplace, hroot, hanchors, hne⟩
    exact ⟨r, o.place, ⟨hplace, hanchors, hanchors ▸ hne⟩, root, hroot, rfl⟩

theorem mem_placed {rules : List (Rule W)} {input : List String} {o : Occurrence} {r : Rule W}
    {root : String} :
    (o, r, root) ∈ placed rules input ↔
      rules[o.place]? = some r ∧ r.rootSymbol = .ok root ∧ r.anchors ≠ [] ∧
        r.anchors <+: input.drop o.pos := by
  simp only [placed, List.mem_flatMap, List.mem_range, mem_placedWith]
  constructor
  · rintro ⟨pos, -, m, -, rfl, hplace, hroot, hanchors, hne⟩
    exact ⟨hplace, hroot, hne, hanchors ▸ List.take_prefix _ _⟩
  · rintro ⟨hplace, hroot, hne, hprefix⟩
    have hpos := List.length_pos_iff.2 hne
    have hle := hprefix.length_le
    have hdrop := List.length_drop (i := o.pos) (l := input)
    have hm : r.anchors.length - 1 + 1 = r.anchors.length := by omega
    refine ⟨o.pos, by omega, r.anchors.length - 1, by omega, rfl, hplace, hroot, ?_, hne⟩
    rw [hm]
    exact List.prefix_iff_eq_take.1 hprefix

theorem map_placed (rules : List (Rule W)) (starts : SymbolSet) (input : List String) :
    (placed rules input).map (fun p => (p.2.1, p.1.pos, p.2.2)) =
      candidates (Lexicon.ofRules rules starts) input := by
  simp only [candidates, placed, rulesAt_ofRules, ← map_placedWith, List.map_flatMap, List.map_map]
  refine List.flatMap_congr fun pos _ => List.flatMap_congr fun m _ => ?_
  refine List.map_congr_left fun p hp => ?_
  have hpos : p.1.pos = pos := (mem_placedWith.1 hp).1
  simp [hpos]

theorem width_of_mem_placedWith {rules : List (Rule W)} {input : List String} {pos m : Nat}
    (hm : m < (input.drop pos).length) {p : Occurrence × Rule W × String}
    (hp : p ∈ placedWith rules input pos m) : p.1.width rules = m + 1 := by
  obtain ⟨-, hplace, -, hanchors, -⟩ := mem_placedWith.1 hp
  simp only [Occurrence.width, hplace, hanchors, Option.map_some, Option.getD_some,
    List.length_take]
  omega

/-- The rules on the same words come by their places. -/
theorem pairwise_placedWith (rules : List (Rule W)) {input : List String} {pos m : Nat}
    (hm : m < (input.drop pos).length) :
    (placedWith rules input pos m).Pairwise fun p q => Occurrence.Before rules p.1 q.1 := by
  have hplaces : rules.zipIdx.Pairwise fun p q => p.2 < q.2 := by
    rw [← List.pairwise_map, List.zipIdx_map_snd]
    exact List.pairwise_lt_range'
  have hlisted : (placedWith rules input pos m).Pairwise fun p q => p.1.place < q.1.place := by
    refine List.Pairwise.filterMap _ ?_ (hplaces.filter _)
    intro p q hlt p' hp q' hq
    obtain ⟨root, -, rfl⟩ := Option.map_eq_some_iff.1 hp
    obtain ⟨root', -, rfl⟩ := Option.map_eq_some_iff.1 hq
    exact hlt
  refine hlisted.imp_of_mem fun {p q} hp hq hlt => ?_
  have hpos := (mem_placedWith.1 hp).1.trans (mem_placedWith.1 hq).1.symm
  have hwidth := (width_of_mem_placedWith hm hp).trans (width_of_mem_placedWith hm hq).symm
  exact Or.inr ⟨hpos, Or.inr ⟨hwidth, hlt⟩⟩

theorem pairwise_placed (rules : List (Rule W)) (input : List String) :
    (placed rules input).Pairwise fun p q => Occurrence.Before rules p.1 q.1 := by
  rw [placed, List.pairwise_flatMap]
  constructor
  · intro pos _
    rw [List.pairwise_flatMap]
    refine ⟨fun m hm => pairwise_placedWith rules (List.mem_range.1 hm), ?_⟩
    refine List.pairwise_lt_range.imp_of_mem fun {m m'} hm hm' hlt p hp q hq => ?_
    have hpos := (mem_placedWith.1 hp).1.trans (mem_placedWith.1 hq).1.symm
    have hwidth := width_of_mem_placedWith (List.mem_range.1 hm) hp
    have hwidth' := width_of_mem_placedWith (List.mem_range.1 hm') hq
    exact Or.inr ⟨hpos, Or.inl (by omega)⟩
  · refine List.pairwise_lt_range.imp fun {pos pos'} hlt p hp q hq => ?_
    obtain ⟨m, -, hp⟩ := List.mem_flatMap.1 hp
    obtain ⟨m', -, hq⟩ := List.mem_flatMap.1 hq
    have hpos := (mem_placedWith.1 hp).1
    have hpos' := (mem_placedWith.1 hq).1
    exact Or.inl (by omega)

/-! ## One tree for each occurrence -/

theorem forall₂_gives (rules : List (Rule W)) (starts : SymbolSet) (input : List String) :
    List.Forall₂ (Occurrence.Gives rules) ((placed rules input).map Prod.fst)
      (ofInput (Lexicon.ofRules rules starts) input).trees := by
  have hsame : List.Forall₂ (fun p t => (p.2.1, p.1.pos, p.2.2) = AnchoredTree.place t)
      (placed rules input) (ofInput (Lexicon.ofRules rules starts) input).trees := by
    have hplaces := (map_placed rules starts input).trans (map_place_ofInput _ input).symm
    rw [← List.forall₂_eq_eq_eq, List.forall₂_map_left_iff, List.forall₂_map_right_iff] at hplaces
    exact hplaces
  rw [List.forall₂_map_left_iff, List.forall₂_iff_zip]
  obtain ⟨hlength, hzip⟩ := List.forall₂_iff_zip.1 hsame
  refine ⟨hlength, fun {p t} hmem => ?_⟩
  obtain ⟨hplace, hroot, -⟩ := mem_placed.1 (List.of_mem_zip hmem).1
  have htree := hzip hmem
  simp only [AnchoredTree.place, Prod.mk.injEq] at htree
  obtain ⟨hrule, hpos, hsymbol⟩ := htree
  rw [hrule] at hplace hroot
  rw [hsymbol] at hroot
  exact ⟨hplace, hroot, hpos.symm⟩

/--
For a lexicon that rules were added to and an input, the trees are those of the occurrences
of the rules in the input, one for each and in their order.  The trees are numbered from 0
without gaps, and the tables list those of each kind and root symbol, in order.
-/
theorem exists_occurrences_ofInput (rules : List (Rule W)) (starts : SymbolSet)
    (input : List String) :
    ∃ occurrences : List Occurrence,
      (∀ o, o ∈ occurrences ↔ o.IsIn rules input) ∧
      occurrences.Pairwise (Occurrence.Before rules) ∧
      List.Forall₂ (Occurrence.Gives rules) occurrences
        (ofInput (Lexicon.ofRules rules starts) input).trees ∧
      (ofInput (Lexicon.ofRules rules starts) input).trees.map AnchoredTree.id =
        List.range (ofInput (Lexicon.ofRules rules starts) input).size ∧
      (ofInput (Lexicon.ofRules rules starts) input).Filed := by
  refine ⟨(placed rules input).map Prod.fst, ?_, ?_, ?_, ?_, filed_ofInput _ input⟩
  · intro o
    constructor
    · intro ho
      obtain ⟨⟨o, r, root⟩, hmem, rfl⟩ := List.mem_map.1 ho
      exact ⟨r, root, mem_placed.1 hmem⟩
    · rintro ⟨r, root, h⟩
      exact List.mem_map.2 ⟨(o, r, root), mem_placed.2 h, rfl⟩
  · exact List.pairwise_map.2 (pairwise_placed rules input)
  · exact forall₂_gives rules starts input
  · rw [size, trees_ofInput, List.map_map, List.length_map, List.length_zipIdx]
    exact (List.zipIdx_map_snd 0 _).trans List.range_eq_range'.symm

end Selection

end TreeInsertion
