import Mathlib.Logic.Relation
import TreeInsertion.Forest.Readings
import TreeInsertion.Proofs.Forest.Choices

/-!
# Unpacking

What unpacking keeps is as good as what it finds: a property that the analyses of an
item have because those of its antecedents have it, and that the cut of a cycle grants
as well, holds of everything that is unpacked.
-/

namespace TreeInsertion

namespace Chart

variable {W : Type} {c : Chart W}

/-! ## The equations of unpacking -/

theorem analysesOf_eq (why : Derivation) (parts : List (List (Analysis W))) :
    c.analysesOf why parts =
      (ways parts).map fun way => way.flatten ++ (c.edgeOf? why).toList :=
  rfl

theorem unpack_of_known {free : List Nat} {id : Nat} {known : Unpacked W}
    {analyses : List (Analysis W)} (hknown : known[id]? = some analyses) :
    c.unpack free id known = (analyses, known) := by
  rw [unpack, hknown]

theorem unpack_of_open {free : List Nat} {id : Nat} {known : Unpacked W}
    (hknown : known[id]? = none) (hfree : id ∉ free) : c.unpack free id known = ([], known) := by
  rw [unpack, hknown, dif_neg hfree]

def collectFrom {α β γ σ : Type} (visit : α → σ → β × σ) (yield : α → β → List γ)
    (as : List α) (s : σ) : List γ × σ :=
  as.foldl (fun (found, s) a => (found ++ yield a (visit a s).1, (visit a s).2)) ([], s)

def unpackParts (c : Chart W) (free : List Nat) (why : Derivation) (known : Unpacked W) :
    List (List (Analysis W)) × Unpacked W :=
  collectFrom (c.unpack free) (fun _ analyses => [analyses]) why.antecedents known

theorem unpack_of_free {free : List Nat} {id : Nat} {known : Unpacked W}
    (hknown : known[id]? = none) (hfree : id ∈ free) :
    c.unpack free id known =
      let (analyses, known) :=
        collectFrom (c.unpackParts (free.erase id)) c.analysesOf (c.derivationsOf id) known
      (analyses, known.insert id analyses) := by
  rw [unpack, hknown]
  simp only [hfree]
  rfl

/-! ## What holds of everything unpacked -/

theorem collectFrom_spec {α β γ σ : Type} {visit : α → σ → β × σ} (yield : α → β → List γ)
    {Keeps : σ → Prop} {Finds : α → β → Prop} {as : List α}
    (hvisit : ∀ a ∈ as, ∀ s, Keeps s → Finds a (visit a s).1 ∧ Keeps (visit a s).2)
    {s : σ} (hs : Keeps s) :
    Keeps (collectFrom visit yield as s).2 ∧ ∃ bs, List.Forall₂ Finds as bs ∧
      (collectFrom visit yield as s).1 = (List.zipWith yield as bs).flatten := by
  have hfold (found : List γ) :
      let r := as.foldl (fun (found, s) a => (found ++ yield a (visit a s).1, (visit a s).2))
        (found, s)
      Keeps r.2 ∧ ∃ bs, List.Forall₂ Finds as bs ∧
        r.1 = found ++ (List.zipWith yield as bs).flatten := by
    induction as generalizing found s with
    | nil => exact ⟨hs, [], .nil, by simp⟩
    | cons a as ih =>
        obtain ⟨hfinds, hkeeps⟩ := hvisit a List.mem_cons_self s hs
        obtain ⟨hlast, bs, hbs, heq⟩ :=
          ih (fun b hb => hvisit b (List.mem_cons_of_mem a hb)) hkeeps
            (found ++ yield a (visit a s).1)
        refine ⟨hlast, _ :: bs, .cons hfinds hbs, ?_⟩
        rw [List.foldl_cons, heq, List.zipWith_cons_cons, List.flatten_cons, List.append_assoc]
  exact hfold []

/-- What each visit keeps holds after all of them. -/
theorem collectFrom_keeps {α β γ σ : Type} {visit : α → σ → β × σ} (yield : α → β → List γ)
    {Keeps : σ → Prop} {as : List α}
    (hvisit : ∀ a ∈ as, ∀ s, Keeps s → Keeps (visit a s).2) {s : σ} (hs : Keeps s) :
    Keeps (collectFrom visit yield as s).2 := by
  have hspec := @collectFrom_spec _ _ _ _ visit yield Keeps (fun _ _ => True) as
  exact (hspec (fun a ha s hs => ⟨trivial, hvisit a ha s hs⟩) hs).1

def AllKnown (Good : Nat → List (Analysis W) → Prop) (known : Unpacked W) : Prop :=
  ∀ id analyses, known[id]? = some analyses → Good id analyses

theorem AllKnown.insert {Good : Nat → List (Analysis W) → Prop} {known : Unpacked W}
    (h : AllKnown Good known) {id : Nat} {analyses : List (Analysis W)} (hid : Good id analyses) :
    AllKnown Good (known.insert id analyses) := by
  intro id' analyses' hget
  rw [Std.TreeMap.getElem?_insert] at hget
  split at hget
  · rename_i heq
    cases Std.LawfulEqOrd.eq_of_compare heq
    cases hget
    exact hid
  · exact h _ _ hget

theorem flatten_zipWith_singleton {α β : Type} {as : List α} {bs : List β}
    (h : as.length = bs.length) : (List.zipWith (fun _ b => [b]) as bs).flatten = bs := by
  induction as generalizing bs with
  | nil => simpa [eq_comm] using h
  | cons a as ih =>
      cases bs with
      | nil => cases h
      | cons b bs => simp [ih (Nat.succ.inj h)]

theorem unpackParts_spec {Good : Nat → List (Analysis W) → Prop} {free : List Nat}
    {why : Derivation}
    (hvisit : ∀ a ∈ why.antecedents, ∀ known, AllKnown Good known →
      Good a (c.unpack free a known).1 ∧ AllKnown Good (c.unpack free a known).2)
    {known : Unpacked W} (hknown : AllKnown Good known) :
    List.Forall₂ Good why.antecedents (c.unpackParts free why known).1 ∧
      AllKnown Good (c.unpackParts free why known).2 := by
  obtain ⟨hkeeps, parts, hparts, heq⟩ :=
    collectFrom_spec (fun _ analyses => [analyses]) hvisit hknown
  rw [flatten_zipWith_singleton hparts.length_eq] at heq
  exact ⟨heq.symm ▸ hparts, hkeeps⟩

/--
Induction along an unpacking.  A property of items and their analyses holds of all that is
unpacked, if it passes from the antecedents to an item and holds where a cycle is cut.  The
condition on the items that are free may say where that can be.
-/
theorem unpack_induction (Open : List Nat → Nat → Prop)
    {Good : Nat → List (Analysis W) → Prop}
    (hopen : ∀ free id, id ∈ free → Open free id →
      ∀ a ∈ c.antecedentsOf id, Open (free.erase id) a)
    (hcut : ∀ free id, id ∉ free → Open free id → Good id [])
    (hgood : ∀ id parts,
      List.Forall₂ (fun why parts => List.Forall₂ Good why.antecedents parts)
        (c.derivationsOf id) parts →
      Good id (List.zipWith c.analysesOf (c.derivationsOf id) parts).flatten)
    {free : List Nat} {id : Nat} {known : Unpacked W} (hid : Open free id)
    (hknown : AllKnown Good known) :
    Good id (c.unpack free id known).1 ∧ AllKnown Good (c.unpack free id known).2 := by
  induction hn : free.length using Nat.strongRecOn generalizing free id known with
  | _ n ih =>
      cases hget : known[id]? with
      | some analyses =>
          rw [unpack_of_known hget]
          exact ⟨hknown id analyses hget, hknown⟩
      | none =>
          by_cases hfree : id ∈ free
          · have hlt : (free.erase id).length < n := by
              have hpos := List.length_pos_of_mem hfree
              rw [List.length_erase_of_mem hfree]
              omega
            have hparts (why : Derivation) (hwhy : why ∈ c.derivationsOf id) (known : Unpacked W)
                (hknown : AllKnown Good known) :
                List.Forall₂ Good why.antecedents (c.unpackParts (free.erase id) why known).1 ∧
                  AllKnown Good (c.unpackParts (free.erase id) why known).2 := by
              refine unpackParts_spec (fun a ha known hknown => ?_) hknown
              exact ih _ hlt (hopen free id hfree hid a (List.mem_flatMap.2 ⟨why, hwhy, ha⟩))
                hknown rfl
            obtain ⟨hkeeps, parts, hparts, heq⟩ := collectFrom_spec c.analysesOf hparts hknown
            have hanalyses := hgood id parts hparts
            rw [← heq] at hanalyses
            rw [unpack_of_free hget hfree]
            exact ⟨hanalyses, hkeeps.insert hanalyses⟩
          · rw [unpack_of_open hget hfree]
            exact ⟨hcut free id hfree hid, hknown⟩

theorem unpackAll_spec {Good : Nat → List (Analysis W) → Prop} (items : List (Item W))
    (hvisit : ∀ x ∈ items, ∀ known, AllKnown Good known →
      Good x.id (c.unpack (List.range c.items.size) x.id known).1 ∧
        AllKnown Good (c.unpack (List.range c.items.size) x.id known).2)
    {known : Unpacked W} (hknown : AllKnown Good known) :
    ∃ unpacked : List (Item W × List (Analysis W)),
      unpacked.map Prod.fst = items ∧ (∀ u ∈ unpacked, Good u.1.id u.2) ∧
        c.unpackAll items known =
          unpacked.flatMap fun (x, analyses) => analyses.map fun analysis => (x, analysis) := by
  induction items generalizing known with
  | nil => exact ⟨[], rfl, by simp, rfl⟩
  | cons x rest ih =>
      obtain ⟨hgood, hkeeps⟩ := hvisit x List.mem_cons_self known hknown
      obtain ⟨unpacked, hitems, hrest, heq⟩ :=
        ih (fun y hy => hvisit y (List.mem_cons_of_mem x hy)) hkeeps
      refine ⟨(x, (c.unpack (List.range c.items.size) x.id known).1) :: unpacked,
        by rw [List.map_cons, hitems], ?_, ?_⟩
      · exact List.forall_mem_cons.2 ⟨hgood, hrest⟩
      · rw [List.flatMap_cons, ← heq]
        rfl

theorem allKnown_empty (Good : Nat → List (Analysis W) → Prop) : AllKnown Good ∅ := by
  simp [AllKnown]

end Chart

end TreeInsertion
