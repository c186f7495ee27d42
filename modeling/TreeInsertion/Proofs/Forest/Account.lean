import TreeInsertion.Proofs.Forest.Cycles

/-!
# Accounts

An account tells how an item came up: by one of its derivations, with an account of each
antecedent.  Unpacking finds the edges of distinct accounts, so the readings of a chart
are those of distinct accounts of its accepted items.
-/

namespace TreeInsertion

inductive Account where
  | mk (id : Nat) (why : Derivation) (parts : List Account)

namespace Account

def id : Account → Nat
  | mk id _ _ => id

def why : Account → Derivation
  | mk _ why _ => why

variable {W : Type}

/-- The edges of the parts in order, and the edge of the derivation last. -/
def edges (c : Chart W) : Account → Analysis W
  | mk _ why parts => (parts.map (edges c)).flatten ++ (c.edgeOf? why).toList

/-- Whether the derivations are those of the chart, down to the predictions. -/
inductive Valid (c : Chart W) : Account → Prop where
  | mk {id : Nat} {why : Derivation} {parts : List Account} (hwhy : why ∈ c.derivationsOf id)
      (hids : parts.map Account.id = why.antecedents) (hparts : ∀ a ∈ parts, Valid c a) :
      Valid c (.mk id why parts)

end Account

namespace Chart

variable {W H : Type}

/-- Whether the analyses are the edges of distinct accounts of the item. -/
def Told (c : Chart W) (id : Nat) (analyses : List (Analysis W)) : Prop :=
  ∃ accounts : List Account, accounts.Nodup ∧ (∀ a ∈ accounts, a.id = id ∧ a.Valid c) ∧
    analyses = accounts.map (Account.edges c)

/-- The accounts of several items, one list for each of them. -/
theorem exists_accounts_of_forall₂ {c : Chart W} {ids : List Nat}
    {parts : List (List (Analysis W))} (h : List.Forall₂ c.Told ids parts) :
    ∃ accounts : List (List Account), parts = accounts.map (List.map (Account.edges c)) ∧
      (∀ as ∈ accounts, as.Nodup) ∧
        List.Forall₂ (fun id as => ∀ a ∈ as, a.id = id ∧ a.Valid c) ids accounts := by
  induction h with
  | nil => exact ⟨[], by simp⟩
  | cons htold _ ih =>
      obtain ⟨as, hnodup, has, rfl⟩ := htold
      obtain ⟨accounts, rfl, hnodups, hvalid⟩ := ih
      exact ⟨as :: accounts, rfl, List.forall_mem_cons.2 ⟨hnodup, hnodups⟩, .cons has hvalid⟩

/-- A choice of an account for each antecedent. -/
theorem ids_of_mem_ways {c : Chart W} {ids : List Nat} {accounts : List (List Account)}
    (h : List.Forall₂ (fun id as => ∀ a ∈ as, a.id = id ∧ a.Valid c) ids accounts)
    {way : List Account} (hway : List.Forall₂ (· ∈ ·) way accounts) :
    way.map Account.id = ids ∧ ∀ a ∈ way, a.Valid c := by
  induction h generalizing way with
  | nil =>
      cases hway
      simp
  | cons has _ ih =>
      obtain _ | ⟨ha, hrest⟩ := hway
      obtain ⟨hids, hvalid⟩ := ih hrest
      exact ⟨by rw [List.map_cons, (has _ ha).1, hids],
        List.forall_mem_cons.2 ⟨(has _ ha).2, hvalid⟩⟩

/-- Each choice of accounts of the antecedents makes one account by the derivation. -/
theorem exists_accounts_by {c : Chart W} {id : Nat} {why : Derivation}
    (hwhy : why ∈ c.derivationsOf id) {parts : List (List (Analysis W))}
    (h : List.Forall₂ c.Told why.antecedents parts) :
    ∃ accounts : List Account, accounts.Nodup ∧
      (∀ a ∈ accounts, a.id = id ∧ a.why = why ∧ a.Valid c) ∧
        c.analysesOf why parts = accounts.map (Account.edges c) := by
  obtain ⟨accounts, rfl, hnodup, hvalid⟩ := exists_accounts_of_forall₂ h
  refine ⟨(ways accounts).map (.mk id why), ?_, ?_, ?_⟩
  · exact (nodup_ways hnodup).map fun _ _ heq => (Account.mk.inj heq).2.2
  · intro a ha
    obtain ⟨way, hway, rfl⟩ := List.mem_map.1 ha
    obtain ⟨hids, hparts⟩ := ids_of_mem_ways hvalid (mem_ways.1 hway)
    exact ⟨rfl, rfl, .mk hwhy hids hparts⟩
  · simp [analysesOf_eq, ways_map, Account.edges]

/-- Derivations that differ make different accounts. -/
theorem told_of_forall₂ {c : Chart W} {id : Nat} {whys : List Derivation} (hnodup : whys.Nodup)
    (hwhys : ∀ why ∈ whys, why ∈ c.derivationsOf id) {parts : List (List (List (Analysis W)))}
    (h : List.Forall₂ (fun why parts => List.Forall₂ c.Told why.antecedents parts) whys parts) :
    ∃ accounts : List Account, accounts.Nodup ∧
      (∀ a ∈ accounts, a.id = id ∧ a.why ∈ whys ∧ a.Valid c) ∧
        (List.zipWith c.analysesOf whys parts).flatten = accounts.map (Account.edges c) := by
  induction h with
  | nil => exact ⟨[], by simp⟩
  | @cons why part whys parts hpart _ ih =>
      obtain ⟨hnew, hrest⟩ := List.nodup_cons.1 hnodup
      obtain ⟨hwhy, hwhys⟩ := List.forall_mem_cons.1 hwhys
      obtain ⟨first, hfirst, hfirstValid, hfirstEq⟩ := exists_accounts_by hwhy hpart
      obtain ⟨later, hlater, hlaterValid, hlaterEq⟩ := ih hrest hwhys
      refine ⟨first ++ later, ?_, ?_, ?_⟩
      · rw [List.nodup_append]
        refine ⟨hfirst, hlater, fun a ha b hb heq => hnew ?_⟩
        rw [← (hfirstValid a ha).2.1, heq]
        exact (hlaterValid b hb).2.1
      · intro a ha
        rcases List.mem_append.1 ha with ha | ha
        · obtain ⟨hid, hwhy, hvalid⟩ := hfirstValid a ha
          exact ⟨hid, hwhy ▸ List.mem_cons_self, hvalid⟩
        · obtain ⟨hid, hwhy, hvalid⟩ := hlaterValid a ha
          exact ⟨hid, List.mem_cons_of_mem _ hwhy, hvalid⟩
      · rw [List.zipWith_cons_cons, List.flatten_cons, hfirstEq, hlaterEq, List.map_append]

/-- What unpacking finds and keeps are the edges of distinct accounts. -/
theorem told_unpack {c : Chart W} (hnodup : ∀ id, (c.derivationsOf id).Nodup) {free : List Nat}
    {id : Nat} {known : Unpacked W} (hknown : AllKnown c.Told known) :
    c.Told id (c.unpack free id known).1 ∧ AllKnown c.Told (c.unpack free id known).2 := by
  refine unpack_induction (fun _ _ => True) ?_ ?_ ?_ trivial hknown
  · exact fun _ _ _ _ _ _ => trivial
  · exact fun _ _ _ _ => ⟨[], by simp⟩
  · intro id parts hparts
    obtain ⟨accounts, hdistinct, hvalid, heq⟩ :=
      told_of_forall₂ (hnodup id) (fun _ hwhy => hwhy) hparts
    exact ⟨accounts, hdistinct, fun a ha => ⟨(hvalid a ha).1, (hvalid a ha).2.2⟩, heq⟩

/-- The analyses of several items, one for each of some distinct accounts of them. -/
theorem exists_accounts_of_told {c : Chart W} {unpacked : List (Item W × List (Analysis W))}
    (hnodup : (unpacked.map Prod.fst).Nodup) (htold : ∀ u ∈ unpacked, c.Told u.1.id u.2) :
    ∃ told : List (Item W × Account), told.Nodup ∧
      (∀ p ∈ told, p.1 ∈ unpacked.map Prod.fst ∧ p.2.id = p.1.id ∧ p.2.Valid c) ∧
        (unpacked.flatMap fun (x, analyses) => analyses.map fun analysis => (x, analysis)) =
          told.map fun p => (p.1, p.2.edges c) := by
  induction unpacked with
  | nil => exact ⟨[], by simp⟩
  | cons u rest ih =>
      obtain ⟨x, analyses⟩ := u
      obtain ⟨hnew, hrest⟩ := List.nodup_cons.1 hnodup
      obtain ⟨⟨accounts, hdistinct, hvalid, hedges⟩, htold⟩ := List.forall_mem_cons.1 htold
      obtain ⟨told, hlater, hlaterValid, hlaterEq⟩ := ih hrest htold
      refine ⟨accounts.map (fun a => (x, a)) ++ told, ?_, ?_, ?_⟩
      · rw [List.nodup_append]
        refine ⟨hdistinct.map fun _ _ heq => (Prod.mk.inj heq).2, hlater, fun p hp q hq heq => ?_⟩
        obtain ⟨a, -, rfl⟩ := List.mem_map.1 hp
        have hmem := (hlaterValid q hq).1
        rw [← heq] at hmem
        exact hnew hmem
      · intro p hp
        rcases List.mem_append.1 hp with hp | hp
        · obtain ⟨a, ha, rfl⟩ := List.mem_map.1 hp
          exact ⟨List.mem_cons_self, hvalid a ha⟩
        · obtain ⟨hmem, hlaterValid⟩ := hlaterValid p hp
          exact ⟨List.mem_cons_of_mem _ hmem, hlaterValid⟩
      · have hanalyses : analyses = accounts.map (Account.edges c) := hedges
        rw [List.flatMap_cons, hlaterEq, hanalyses]
        simp

theorem exists_accounts_of_unpackAll {c : Chart W} (hnodup : ∀ id, (c.derivationsOf id).Nodup)
    {items : List (Item W)} (hitems : items.Nodup) :
    ∃ told : List (Item W × Account), told.Nodup ∧
      (∀ p ∈ told, p.1 ∈ items ∧ p.2.id = p.1.id ∧ p.2.Valid c) ∧
        c.unpackAll items ∅ = told.map fun p => (p.1, p.2.edges c) := by
  obtain ⟨unpacked, rfl, htold, heq⟩ :=
    unpackAll_spec items (fun _ _ _ => told_unpack hnodup) (allKnown_empty _)
  rw [heq]
  exact exists_accounts_of_told hitems htold

end Chart

end TreeInsertion
