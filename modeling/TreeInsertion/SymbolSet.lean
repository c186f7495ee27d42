/-!
# Sets of symbols

A finite set of symbols, kept as the list of its members in the order of their
characters, so that equal sets are equal lists.
-/

namespace TreeInsertion

structure SymbolSet where
  toList : List String
  sorted : toList.Pairwise (· < ·)

namespace SymbolSet

/-- Insert a symbol into an ordered list, where it stays single. -/
def insertSorted (s : String) : List String → List String
  | [] => [s]
  | t :: rest =>
      if s < t then s :: t :: rest
      else if s = t then t :: rest
      else t :: insertSorted s rest

theorem mem_insertSorted {s a : String} {ts : List String} :
    a ∈ insertSorted s ts ↔ a = s ∨ a ∈ ts := by
  induction ts with
  | nil =>
      simp [insertSorted]
  | cons t rest ih =>
      unfold insertSorted
      split
      · simp
      · split
        · simp_all
        · simp only [List.mem_cons, ih]
          constructor
          · rintro (h | h | h) <;> simp [h]
          · rintro (h | h | h) <;> simp [h]

theorem pairwise_insertSorted {s : String} {ts : List String} (h : ts.Pairwise (· < ·)) :
    (insertSorted s ts).Pairwise (· < ·) := by
  induction ts with
  | nil =>
      simp [insertSorted]
  | cons t rest ih =>
      obtain ⟨hhead, htail⟩ := List.pairwise_cons.1 h
      unfold insertSorted
      split
      · rename_i hlt
        refine List.pairwise_cons.2 ⟨?_, h⟩
        intro a ha
        rcases List.mem_cons.1 ha with rfl | ha
        · exact hlt
        · exact String.lt_trans hlt (hhead a ha)
      · split
        · exact h
        · rename_i hnlt hne
          refine List.pairwise_cons.2 ⟨?_, ih htail⟩
          intro a ha
          rcases mem_insertSorted.1 ha with rfl | ha
          · exact Decidable.byContradiction fun hnlt' =>
              hne (String.le_antisymm (String.not_lt.1 hnlt') (String.not_lt.1 hnlt))
          · exact hhead a ha

def empty : SymbolSet :=
  ⟨[], List.Pairwise.nil⟩

def insert (s : String) (set : SymbolSet) : SymbolSet :=
  ⟨insertSorted s set.toList, pairwise_insertSorted set.sorted⟩

def ofList (symbols : List String) : SymbolSet :=
  symbols.foldr insert empty

def contains (set : SymbolSet) (s : String) : Bool :=
  set.toList.contains s

def size (set : SymbolSet) : Nat :=
  set.toList.length

def render (set : SymbolSet) : String :=
  ", ".intercalate set.toList

@[simp] theorem mem_toList_ofList {symbols : List String} {s : String} :
    s ∈ (ofList symbols).toList ↔ s ∈ symbols := by
  induction symbols with
  | nil =>
      simp [ofList, empty]
  | cons t rest ih =>
      have hcons : ofList (t :: rest) = (ofList rest).insert t := rfl
      rw [hcons, List.mem_cons, ← ih]
      exact mem_insertSorted

end SymbolSet

end TreeInsertion
