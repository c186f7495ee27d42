import TreeInsertion.Lexicon.Basic

/-!
# Looking up rules by their anchors

A lexicon answers for a sequence of words with the rules that were filed under it, in the
order in which they came.  One walk through the trie finds what separate look-ups find for
all beginnings of the sequence, since no path goes on behind a missing branch.  The number
of rules needs the order of the branches: a word that stood behind its place would be filed
there a second time.
-/

namespace TreeInsertion

/-! ## The order of the branches -/

mutual

/-- Whether the branches of every node are in the order of their words. -/
def Trie.Ordered {α : Type} : Trie α → Prop
  | .node _ bs => bs.Ordered

def Branches.Ordered {α : Type} : Branches α → Prop
  | .nil => True
  | .cons word t rest => (∀ w, (rest.get? w).isSome → word < w) ∧ t.Ordered ∧ rest.Ordered

end

namespace Branches

variable {α : Type}

theorem Ordered.get?_eq_none {word w : String} {t : Trie α} {rest : Branches α}
    (h : (cons w t rest).Ordered) (hlt : word < w) : (cons w t rest).get? word = none := by
  have hne : w ≠ word := fun heq => String.lt_irrefl w (heq ▸ hlt)
  have hrest : (rest.get? word).isSome = false := by
    refine Bool.eq_false_iff.2 fun hsome => ?_
    exact String.lt_irrefl word (String.lt_trans hlt (h.1 word hsome))
  simpa [get?, hne] using hrest

theorem Ordered.get? {bs : Branches α} (h : bs.Ordered) {word : String} {t : Trie α}
    (hget : bs.get? word = some t) : t.Ordered := by
  match bs with
  | nil => simp [Branches.get?] at hget
  | cons w u rest =>
      unfold Branches.get? at hget
      split at hget
      · cases hget
        exact h.2.1
      · exact Ordered.get? h.2.2 hget

theorem Ordered.set {bs : Branches α} (h : bs.Ordered) (word : String) {t : Trie α}
    (ht : t.Ordered) : (bs.set word t).Ordered := by
  match bs with
  | nil => simp [Branches.set, Ordered, Branches.get?, ht]
  | cons w u rest =>
      unfold Branches.set
      split
      · rename_i hlt
        refine ⟨fun v hv => ?_, ht, h⟩
        by_cases heq : w = v
        · exact heq ▸ hlt
        · have hlater : (rest.get? v).isSome := by simpa [Branches.get?, heq] using hv
          exact String.lt_trans hlt (h.1 v hlater)
      · split
        · exact ⟨h.1, ht, h.2.2⟩
        · rename_i hnlt hne
          have hlt : w < word := Decidable.byContradiction fun hnlt' =>
            hne (String.le_antisymm (String.not_lt.1 hnlt') (String.not_lt.1 hnlt))
          refine ⟨fun v hv => ?_, h.2.1, Ordered.set h.2.2 word ht⟩
          rw [get?_set] at hv
          by_cases heq : word = v
          · exact heq ▸ hlt
          · exact h.1 v (by simpa [heq] using hv)

/-- A new subtrie adds its values, less those that it takes the place of. -/
theorem size_set {bs : Branches α} (h : bs.Ordered) (word : String) (t : Trie α) :
    (bs.set word t).size + ((bs.get? word).getD Trie.empty).size = bs.size + t.size := by
  have hempty : (Trie.empty : Trie α).size = 0 := rfl
  match bs with
  | nil => simp [Branches.set, Branches.get?, size, hempty]
  | cons w u rest =>
      have ih := size_set h.2.2 word t
      unfold Branches.set
      split
      · rename_i hlt
        simp only [size, h.get?_eq_none hlt, Option.getD_none, hempty]
        omega
      · split
        · rename_i heq
          simp only [size, Branches.get?, heq, if_true, Option.getD_some]
          omega
        · rename_i hne
          simp only [size, Branches.get?, Ne.symm hne, if_false]
          omega

end Branches

namespace Trie

variable {α : Type}

theorem ordered_empty : (empty : Trie α).Ordered :=
  trivial

theorem Ordered.sub {vs : List α} {bs : Branches α} (h : (node vs bs).Ordered) (word : String) :
    ((bs.get? word).getD empty).Ordered := by
  cases hget : bs.get? word with
  | none => exact ordered_empty
  | some t => exact Branches.Ordered.get? h hget

theorem Ordered.insert {t : Trie α} (h : t.Ordered) (value : α) (path : List String) :
    (t.insert value path).Ordered := by
  induction path generalizing t with
  | nil =>
      cases t
      exact h
  | cons word path ih =>
      cases t with
      | node vs bs => exact Branches.Ordered.set h word (ih (h.sub word))

theorem size_insert {t : Trie α} (h : t.Ordered) (value : α) (path : List String) :
    (t.insert value path).size = t.size + 1 := by
  induction path generalizing t with
  | nil =>
      cases t
      simp only [Trie.insert, size, List.length_append, List.length_singleton]
      omega
  | cons word path ih =>
      cases t with
      | node vs bs =>
          have hsub := ih (h.sub word)
          have hset := Branches.size_set h word
            (((bs.get? word).getD empty).insert value path)
          simp only [Trie.insert, size]
          omega

/-! ## One walk -/

theorem find_cons_of_some {t sub : Trie α} {word : String} (h : t.branches.get? word = some sub)
    (rest : List String) : t.find (word :: rest) = sub.find rest := by
  simp [find, h]

theorem find_cons_of_none {t : Trie α} {word : String} (h : t.branches.get? word = none)
    (rest : List String) : t.find (word :: rest) = [] := by
  simp [find, h]

/-- The walk reports what is filed under the beginnings of the path, where there is something. -/
theorem matchesFrom_eq (t : Trie α) (depth : Nat) (path : List String) :
    t.matchesFrom depth path =
      ((List.range path.length).map fun m =>
        (depth + (m + 1), t.find (path.take (m + 1)))).filter fun group => !group.2.isEmpty := by
  induction path generalizing t depth with
  | nil => simp [matchesFrom]
  | cons word path ih =>
      unfold matchesFrom
      rw [List.length_cons, List.range_succ_eq_map, List.map_cons, List.map_map]
      cases hget : t.branches.get? word with
      | none => simp [find_cons_of_none hget, Function.comp_def]
      | some sub =>
          have hlater :
              (fun m => (depth + (m + 1), t.find ((word :: path).take (m + 1)))) ∘ Nat.succ =
                fun m => (depth + 1 + (m + 1), sub.find (path.take (m + 1))) := by
            funext m
            simp only [Function.comp_apply, Nat.succ_eq_add_one, List.take_succ_cons,
              find_cons_of_some hget, Nat.add_comm, Nat.add_left_comm]
          rw [hlater, List.filter_cons, ← ih sub (depth + 1)]
          simp only [List.take_succ_cons, List.take_zero, find_cons_of_some hget, find_nil]
          cases sub.values.isEmpty <;> simp

/-- Each group of values is filed under a non-empty path. -/
theorem exists_find_of_mem_matchesFrom {t : Trie α} {path : List String} {depth len : Nat}
    {vs : List α} (h : (len, vs) ∈ t.matchesFrom depth path) :
    ∃ word rest, vs = t.find (word :: rest) := by
  rw [matchesFrom_eq] at h
  obtain ⟨m, hm, heq⟩ := List.mem_map.1 (List.mem_filter.1 h).1
  cases path with
  | nil => simp at hm
  | cons word rest => exact ⟨word, rest.take m, (Prod.mk.inj heq).2.symm⟩

/-- All groups together hold what is filed under the beginnings of the path. -/
theorem flatMap_matchesFrom {β : Type} {f : List α → List β} (hf : f [] = []) (t : Trie α)
    (depth : Nat) (path : List String) :
    ((t.matchesFrom depth path).flatMap fun group => f group.2) =
      (List.range path.length).flatMap fun m => f (t.find (path.take (m + 1))) := by
  have hskip (groups : List (Nat × List α)) :
      ((groups.filter fun group => !group.2.isEmpty).flatMap fun group => f group.2) =
        groups.flatMap fun group => f group.2 := by
    induction groups with
    | nil => rfl
    | cons group groups ih =>
        by_cases hempty : group.2 = []
        · simp [ih, hempty, hf]
        · simp [ih, hempty]
  rw [matchesFrom_eq, hskip, List.flatMap_map]

end Trie

namespace Lexicon

variable {W : Type}

/-! ## Rules that are added one after the other -/

theorem find_add (lex : Lexicon W) (r : Rule W) (path : List String) :
    (lex.add r).trie.find path =
      lex.trie.find path ++ (if r.anchors = path ∧ path ≠ [] then [r] else []) := by
  unfold add
  cases hanchors : r.anchors with
  | nil => cases path <;> simp
  | cons word rest =>
      by_cases hpath : path = word :: rest
      · simp [Trie.find_insert, hpath]
      · simp [Trie.find_insert, hpath, eq_comm (b := path)]

/-- The lexicon of a grammar files every anchored rule under its anchors, in order. -/
theorem find_ofRules (rules : List (Rule W)) (starts : SymbolSet) (path : List String) :
    (ofRules rules starts).trie.find path =
      rules.filter fun r => decide (r.anchors = path ∧ path ≠ []) := by
  have hfold (lex : Lexicon W) : (rules.foldl add lex).trie.find path =
      lex.trie.find path ++ rules.filter fun r => decide (r.anchors = path ∧ path ≠ []) := by
    induction rules generalizing lex with
    | nil => simp
    | cons r rules ih =>
        rw [List.foldl_cons, ih, find_add, List.filter_cons]
        by_cases h : r.anchors = path ∧ path ≠ [] <;> simp [h]
  simp [ofRules, hfold]

theorem size_add {lex : Lexicon W} (h : lex.trie.Ordered) (r : Rule W) :
    (lex.add r).trie.Ordered ∧
      (lex.add r).size = lex.size + if r.anchors = [] then 0 else 1 := by
  unfold add
  cases hanchors : r.anchors with
  | nil => simpa using h
  | cons word rest =>
      exact ⟨h.insert r (word :: rest), Trie.size_insert h r (word :: rest)⟩

theorem size_ofRules (rules : List (Rule W)) (starts : SymbolSet) :
    (ofRules rules starts).size = rules.countP fun r => decide (r.anchors ≠ []) := by
  have hfold (lex : Lexicon W) (h : lex.trie.Ordered) : (rules.foldl add lex).size =
      lex.size + rules.countP fun r => decide (r.anchors ≠ []) := by
    induction rules generalizing lex with
    | nil => rfl
    | cons r rules ih =>
        obtain ⟨hordered, hsize⟩ := size_add h r
        rw [List.foldl_cons, ih (lex.add r) hordered, hsize, List.countP_cons]
        by_cases hanchors : r.anchors = []
        · simp [hanchors]
        · simp [hanchors, Nat.add_assoc, Nat.add_comm 1]
  have hempty : (⟨Trie.empty, starts⟩ : Lexicon W).size = 0 := rfl
  rw [ofRules, hfold _ Trie.ordered_empty, hempty, Nat.zero_add]

/--
A lexicon that rules were added to finds for the rest of a list of words just the rules
with these anchors, in the order of the additions, and nothing if no words are left.  It
holds as many rules as there are with anchors.
-/
theorem find_and_size_ofRules (rules : List (Rule W)) (starts : SymbolSet)
    (tokens : List String) (start : Nat) :
    (ofRules rules starts).find tokens start =
        (if tokens.length ≤ start then []
          else rules.filter fun r => decide (r.anchors = tokens.drop start)) ∧
      (ofRules rules starts).size = rules.countP fun r => decide (r.anchors ≠ []) := by
  refine ⟨?_, size_ofRules rules starts⟩
  rw [find, find_ofRules]
  by_cases hpast : tokens.length ≤ start
  · simp [hpast, List.drop_eq_nil_iff.2 hpast]
  · simp [hpast]

/--
The walk over the words from a position on reports the same as a look-up of its own for
each number of words up to the end, less the look-ups that find nothing.
-/
theorem matchesAt_eq_find (lex : Lexicon W) (tokens : List String) (start : Nat) :
    lex.matchesAt tokens start =
      ((List.range' 1 (tokens.length - start)).map fun len =>
        (len, lex.find (tokens.take (start + len)) start)).filter fun group =>
          !group.2.isEmpty := by
  have hlookup (len : Nat) : lex.find (tokens.take (start + len)) start =
      lex.trie.find ((tokens.drop start).take len) := by
    rw [find, List.drop_take, Nat.add_sub_cancel_left]
  rw [matchesAt, Trie.matchesFrom_eq, List.length_drop, List.range'_eq_map_range, List.map_map]
  simp only [Function.comp_def, hlookup, Nat.zero_add, Nat.add_comm]

end Lexicon

end TreeInsertion
