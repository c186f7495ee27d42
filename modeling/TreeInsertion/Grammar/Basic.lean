import TreeInsertion.Lexicon.Basic
import TreeInsertion.Rule.Validity

/-!
# Grammars

A grammar is a list of well-formed rules with distinct indices, together with its
start symbols.  Since the type holds the proof of that, the parser never meets a
malformed tree.
-/

namespace TreeInsertion

structure Grammar (W : Type) where
  rules : List (Rule W)
  starts : SymbolSet
  wellFormed : ∀ r ∈ rules, r.WellFormed
  distinct : (rules.map Rule.index).Nodup

namespace Grammar

variable {W : Type}

/-- The first defect of the rules, where none of the indices in `seen` may occur again. -/
def checkRules (seen : List Nat) : List (Rule W) → Except Defect Unit
  | [] => .ok ()
  | r :: rest =>
      match r.check with
      | .error d => .error d
      | .ok () =>
          if r.index ∈ seen then .error (.duplicateIndex r.index)
          else checkRules (r.index :: seen) rest

theorem of_checkRules {seen : List Nat} {rules : List (Rule W)}
    (h : checkRules seen rules = .ok ()) :
    (∀ r ∈ rules, r.WellFormed ∧ r.index ∉ seen) ∧ (rules.map Rule.index).Nodup := by
  induction rules generalizing seen with
  | nil =>
      simp
  | cons r rest ih =>
      unfold checkRules at h
      split at h
      · cases h
      · rename_i hcheck
        split at h
        · cases h
        · rename_i hseen
          obtain ⟨hrest, hnodup⟩ := ih h
          refine ⟨?_, ?_⟩
          · intro s hs
            rcases List.mem_cons.1 hs with rfl | hs
            · exact ⟨hcheck, hseen⟩
            · exact ⟨(hrest s hs).1, fun hmem => (hrest s hs).2 (List.mem_cons_of_mem _ hmem)⟩
          · refine List.nodup_cons.2 ⟨?_, hnodup⟩
            intro hmem
            obtain ⟨s, hs, hidx⟩ := List.mem_map.1 hmem
            exact (hrest s hs).2 (hidx ▸ List.mem_cons_self)

/-- The grammar with the given rules, unless one of them is defective or repeats an index. -/
def ofRules (rules : List (Rule W)) (starts : SymbolSet) : Except Defect (Grammar W) :=
  match h : checkRules [] rules with
  | .error d => .error d
  | .ok () => .ok ⟨rules, starts, fun r hr => ((of_checkRules h).1 r hr).1, (of_checkRules h).2⟩

def lexicon (g : Grammar W) : Lexicon W :=
  Lexicon.ofRules g.rules g.starts

end Grammar

end TreeInsertion
