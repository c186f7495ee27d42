/-!
# Tries

A trie files values under paths of words.  The branches of a node are kept in the
order of their words.  The main statement is that a look-up after an insertion
finds the new value at the end of its own path, and elsewhere what was there.
-/

namespace TreeInsertion

mutual

inductive Trie (α : Type) where
  | node (values : List α) (branches : Branches α)

/-- The subtries of a node, each under the word that leads to it. -/
inductive Branches (α : Type) where
  | nil
  | cons (word : String) (trie : Trie α) (rest : Branches α)

end

namespace Branches

variable {α : Type}

def isEmpty : Branches α → Bool
  | nil => true
  | cons _ _ _ => false

def get? (word : String) : Branches α → Option (Trie α)
  | nil => none
  | cons w trie rest => if w = word then some trie else rest.get? word

def set (word : String) (trie : Trie α) : Branches α → Branches α
  | nil => cons word trie nil
  | cons w t rest =>
      if word < w then cons word trie (cons w t rest)
      else if word = w then cons w trie rest
      else cons w t (rest.set word trie)

theorem get?_set (bs : Branches α) (word other : String) (trie : Trie α) :
    (bs.set word trie).get? other = if word = other then some trie else bs.get? other := by
  match bs with
  | nil =>
      simp [set, get?]
  | cons w t rest =>
      have ih := get?_set rest word other trie
      unfold set
      split
      · simp [get?]
      · split
        · rename_i heq
          subst heq
          by_cases h : word = other <;> simp [get?, h]
        · rename_i hne
          by_cases h : w = other
          · subst h
            simp [get?, hne]
          · simp [get?, h, ih]

end Branches

namespace Trie

variable {α : Type}

def empty : Trie α :=
  node [] .nil

def values : Trie α → List α
  | node vs _ => vs

def branches : Trie α → Branches α
  | node _ bs => bs

def insert (value : α) : List String → Trie α → Trie α
  | [], node vs bs => node (vs ++ [value]) bs
  | word :: path, node vs bs =>
      node vs (bs.set word (insert value path ((bs.get? word).getD empty)))

def find : List String → Trie α → List α
  | [], t => t.values
  | word :: path, t =>
      match t.branches.get? word with
      | none => []
      | some sub => sub.find path

/--
The values at the end of every non-empty beginning of the path, each with the
length of that beginning plus `depth`, as far as there are any.
-/
def matchesFrom (depth : Nat) : List String → Trie α → List (Nat × List α)
  | [], _ => []
  | word :: path, t =>
      match t.branches.get? word with
      | none => []
      | some sub =>
          let later := sub.matchesFrom (depth + 1) path
          if sub.values.isEmpty then later else (depth + 1, sub.values) :: later

end Trie

mutual

def Trie.size {α : Type} : Trie α → Nat
  | .node vs bs => vs.length + bs.size

def Branches.size {α : Type} : Branches α → Nat
  | .nil => 0
  | .cons _ t rest => t.size + rest.size

end

/--
A line for every branch and the lines of its own branches after it, one tab
deeper.  A colon tells that there are some.
-/
def Branches.render {α : Type} (values : List α → String) (depth : Nat) : Branches α → String
  | .nil => ""
  | .cons word (.node vs bs) rest =>
      String.ofList (List.replicate depth '\t') ++ "'" ++ word ++ "' [" ++ values vs ++ "]" ++
        (if bs.isEmpty then "\n" else ":\n") ++ bs.render values (depth + 1) ++
        rest.render values depth

namespace Trie

variable {α : Type}

@[simp] theorem find_nil (t : Trie α) : t.find [] = t.values := by
  rw [find.eq_def]

@[simp] theorem find_empty (path : List String) : (empty : Trie α).find path = [] := by
  cases path <;> simp [find, empty, values, branches, Branches.get?]

theorem find_insert (value : α) (path other : List String) (t : Trie α) :
    (t.insert value path).find other =
      if other = path then t.find other ++ [value] else t.find other := by
  induction path generalizing other t with
  | nil =>
      cases t
      cases other <;> simp [insert, find, values, branches]
  | cons word path ih =>
      cases t with
      | node vs bs =>
          cases other with
          | nil =>
              simp [insert, find, values]
          | cons w rest =>
              by_cases hw : word = w
              · subst hw
                cases hget : bs.get? word <;>
                  simp [insert, find, branches, Branches.get?_set, hget, ih]
              · have hw' : ¬ w = word := fun h => hw h.symm
                simp [insert, find, branches, Branches.get?_set, hw, hw']

end Trie

end TreeInsertion
