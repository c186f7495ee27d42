import Mathlib.Algebra.Ring.Nat
import Mathlib.Data.List.Forall2
import Mathlib.Data.List.Nodup
import TreeInsertion.Forest.Choices

/-!
# What is chosen

The ways to choose one element from each list of a list, where there is one way to
choose from no list at all: which lists they are, that none comes twice, and in which
order they come.
-/

namespace TreeInsertion

variable {α β : Type}

theorem exists_of_mem_right {R : α → β → Prop} {as : List α} {bs : List β}
    (h : List.Forall₂ R as bs) {b : β} (hb : b ∈ bs) : ∃ a ∈ as, R a b := by
  induction h with
  | nil => cases hb
  | cons hr _ ih =>
      rcases List.mem_cons.1 hb with rfl | hb
      · exact ⟨_, List.mem_cons_self, hr⟩
      · obtain ⟨a, ha, hab⟩ := ih hb
        exact ⟨a, List.mem_cons_of_mem _ ha, hab⟩

theorem exists_of_mem_zipWith {γ : Type} {R : α → β → Prop} {f : α → β → γ} {as : List α}
    {bs : List β} (h : List.Forall₂ R as bs) {c : γ} (hc : c ∈ List.zipWith f as bs) :
    ∃ a ∈ as, ∃ b, R a b ∧ c = f a b := by
  induction h with
  | nil => cases hc
  | cons hr _ ih =>
      rw [List.zipWith_cons_cons] at hc
      rcases List.mem_cons.1 hc with rfl | hc
      · exact ⟨_, List.mem_cons_self, _, hr, rfl⟩
      · obtain ⟨a, ha, b, hab, rfl⟩ := ih hc
        exact ⟨a, List.mem_cons_of_mem _ ha, b, hab, rfl⟩

def ways (ls : List (List α)) : List (List α) :=
  if ls.isEmpty then [[]] else choices ls

@[simp] theorem ways_nil : ways ([] : List (List α)) = [[]] :=
  rfl

theorem ways_cons (l : List α) (ls : List (List α)) :
    ways (l :: ls) = (ways ls).flatMap fun rest => l.map fun a => a :: rest := by
  cases ls with
  | nil => simp [ways, choices]
  | cons m ls => rfl

theorem mem_ways {way : List α} {ls : List (List α)} :
    way ∈ ways ls ↔ List.Forall₂ (· ∈ ·) way ls := by
  induction ls generalizing way with
  | nil => simp
  | cons l ls ih =>
      rw [ways_cons, List.mem_flatMap]
      constructor
      · rintro ⟨rest, hrest, hway⟩
        obtain ⟨a, ha, rfl⟩ := List.mem_map.1 hway
        exact .cons ha (ih.1 hrest)
      · rintro (_ | ⟨ha, hrest⟩)
        exact ⟨_, ih.2 hrest, List.mem_map_of_mem ha⟩

/-- The numbers of choices multiply. -/
theorem length_ways (ls : List (List α)) : (ways ls).length = (ls.map List.length).prod := by
  induction ls with
  | nil => rfl
  | cons l ls ih =>
      rw [ways_cons, List.length_flatMap, List.map_cons, List.prod_cons, ← ih]
      simp [Nat.mul_comm]

/-- Chosen lists joined, with the choices from the first list changing fastest. -/
theorem map_flatten_ways {β : Type} (f : α → List (List β)) (as : List α) :
    (ways (as.map f)).map List.flatten =
      as.foldr (fun a rests => rests.flatMap fun rest => (f a).map (· ++ rest)) [[]] := by
  induction as with
  | nil => rfl
  | cons a as ih =>
      rw [List.map_cons, ways_cons, List.map_flatMap, List.foldr_cons, ← ih, List.flatMap_map]
      simp [Function.comp_def]

/-- There is a way to choose if no list is empty. -/
theorem ways_ne_nil {ls : List (List α)} (h : ∀ l ∈ ls, l ≠ []) : ways ls ≠ [] := by
  induction ls with
  | nil => simp
  | cons l ls ih =>
      rw [ways_cons]
      obtain ⟨a, ha⟩ := List.exists_mem_of_ne_nil l (h l List.mem_cons_self)
      obtain ⟨rest, hrest⟩ :=
        List.exists_mem_of_ne_nil _ (ih fun m hm => h m (List.mem_cons_of_mem l hm))
      exact List.ne_nil_of_mem (List.mem_flatMap.2 ⟨rest, hrest, List.mem_map_of_mem ha⟩)

/-- What is chosen is from one of the lists. -/
theorem exists_mem_of_mem_way {ls : List (List α)} {way : List α} (h : way ∈ ways ls) {a : α}
    (ha : a ∈ way) : ∃ l ∈ ls, a ∈ l :=
  exists_of_mem_right (mem_ways.1 h).flip ha

/-- Whatever can be chosen is chosen in some way, if nothing is lacking elsewhere. -/
theorem exists_way_of_mem {ls : List (List α)} (h : ∀ l ∈ ls, l ≠ []) {l : List α}
    (hl : l ∈ ls) {a : α} (ha : a ∈ l) : ∃ way ∈ ways ls, a ∈ way := by
  induction ls with
  | nil => cases hl
  | cons m ls ih =>
      simp only [ways_cons, List.mem_flatMap, List.mem_map]
      rcases List.mem_cons.1 hl with rfl | hl
      · obtain ⟨rest, hrest⟩ := List.exists_mem_of_ne_nil _
          (ways_ne_nil fun k hk => h k (List.mem_cons_of_mem l hk))
        exact ⟨_, ⟨rest, hrest, a, ha, rfl⟩, List.mem_cons_self⟩
      · obtain ⟨rest, hrest, hmem⟩ := ih (fun k hk => h k (List.mem_cons_of_mem m hk)) hl
        obtain ⟨b, hb⟩ := List.exists_mem_of_ne_nil m (h m List.mem_cons_self)
        exact ⟨_, ⟨rest, hrest, b, hb, rfl⟩, List.mem_cons_of_mem b hmem⟩

/-- Lists without repetitions give no way twice. -/
theorem nodup_ways {ls : List (List α)} (h : ∀ l ∈ ls, l.Nodup) : (ways ls).Nodup := by
  induction ls with
  | nil => simp
  | cons l ls ih =>
      rw [ways_cons, List.nodup_flatMap]
      refine ⟨fun rest _ => ?_, ?_⟩
      · refine (h l List.mem_cons_self).map fun a b hab => ?_
        exact (List.cons.inj hab).1
      · refine (ih fun m hm => h m (List.mem_cons_of_mem l hm)).imp fun {rest rest'} hne => ?_
        refine List.disjoint_iff_ne.2 ?_
        intro way hway way' hway' heq
        obtain ⟨a, -, rfl⟩ := List.mem_map.1 hway
        obtain ⟨b, -, rfl⟩ := List.mem_map.1 hway'
        exact hne (List.cons.inj heq).2

theorem ways_map (f : α → β) (ls : List (List α)) :
    ways (ls.map (List.map f)) = (ways ls).map (List.map f) := by
  induction ls with
  | nil => rfl
  | cons l ls ih =>
      rw [List.map_cons, ways_cons, ways_cons, ih, List.flatMap_map, List.map_flatMap]
      simp [Function.comp_def]

/-! ## The order of the choices -/

theorem getElem?_flatMap {n : Nat} {f : α → List β} (hf : ∀ a, (f a).length = n)
    (as : List α) (k : Nat) : (as.flatMap f)[k]? = as[k / n]?.bind fun a => (f a)[k % n]? := by
  induction as generalizing k with
  | nil => rfl
  | cons a as ih =>
      rw [List.flatMap_cons]
      rcases Nat.lt_or_ge k n with hlt | hge
      · rw [List.getElem?_append_left (by rwa [hf]), Nat.div_eq_of_lt hlt, Nat.mod_eq_of_lt hlt]
        rfl
      · rw [List.getElem?_append_right (by rwa [hf]), hf, ih]
        rcases Nat.eq_zero_or_pos n with rfl | hpos
        · have hnil (b : α) : f b = [] := List.eq_nil_of_length_eq_zero (hf b)
          simp [hnil]
        · rw [Nat.div_eq_sub_div hpos hge, Nat.mod_eq_sub_mod hge, List.getElem?_cons_succ]

/-- Where the `k`-th choice stands in lists of the given lengths; the first changes fastest. -/
def places : List Nat → Nat → List Nat
  | [], _ => []
  | n :: ns, k => k % n :: places ns (k / n)

/-- A place is a digit of the number, where the lengths before it make its weight. -/
theorem getElem?_places (ns : List Nat) (k i : Nat) :
    (places ns k)[i]? = ns[i]?.map fun n => k / (ns.take i).prod % n := by
  induction ns generalizing k i with
  | nil => rfl
  | cons n ns ih =>
      cases i with
      | zero => simp [places]
      | succ i =>
          rw [places, List.getElem?_cons_succ, List.getElem?_cons_succ, ih, List.take_succ_cons,
            List.prod_cons]
          simp only [Nat.div_div_eq_div_mul]

theorem places_eq_iff {ps ns : List Nat} (hlength : ps.length = ns.length) (k : Nat) :
    places ns k = ps ↔
      ∀ i n, ns[i]? = some n → ps[i]? = some (k / (ns.take i).prod % n) := by
  constructor
  · rintro rfl i n hn
    rw [getElem?_places, hn, Option.map_some]
  · intro hdigits
    apply List.ext_getElem?
    intro i
    rw [getElem?_places]
    cases hn : ns[i]? with
    | some n => exact (hdigits i n hn).symm
    | none =>
        rw [List.getElem?_eq_none_iff, ← hlength] at hn
        exact (List.getElem?_eq_none hn).symm

/-- Wherever a choice may stand in the lists, one number leads there. -/
theorem existsUnique_places {ps ns : List Nat} (h : List.Forall₂ (· < ·) ps ns) :
    ∃! k, k < ns.prod ∧ places ns k = ps := by
  induction h with
  | nil => exact ⟨0, ⟨Nat.zero_lt_one, rfl⟩, fun k hk => Nat.lt_one_iff.1 hk.1⟩
  | @cons p n ps ns hp _ ih =>
      obtain ⟨k, ⟨hlt, rfl⟩, hunique⟩ := ih
      have hmod : (p + n * k) % n = p := by rw [Nat.add_mul_mod_self_left, Nat.mod_eq_of_lt hp]
      have hdiv : (p + n * k) / n = k := by
        rw [Nat.add_mul_div_left _ _ (Nat.zero_lt_of_lt hp), Nat.div_eq_of_lt hp, Nat.zero_add]
      refine ⟨p + n * k, ⟨?_, by rw [places, hmod, hdiv]⟩, ?_⟩
      · rw [List.prod_cons]
        calc
          p + n * k < n + n * k := Nat.add_lt_add_right hp _
          _ = n * (k + 1) := by rw [Nat.mul_succ, Nat.add_comm]
          _ ≤ n * ns.prod := Nat.mul_le_mul_left n hlt
      · rintro m ⟨hm, hplaces⟩
        rw [places, List.cons.injEq] at hplaces
        rw [List.prod_cons] at hm
        have hquotient : m / n = k := hunique _ ⟨Nat.div_lt_of_lt_mul hm, hplaces.2⟩
        rw [← Nat.mod_add_div m n, hplaces.1, hquotient]

/-- The `k`-th choice takes from each list the entry at its place there. -/
theorem getElem?_way {ls : List (List α)} {k : Nat} {way : List α}
    (h : (ways ls)[k]? = some way) (i : Nat) :
    way[i]? = ls[i]?.bind fun l => (places (ls.map List.length) k)[i]?.bind fun p => l[p]? := by
  induction ls generalizing k way i with
  | nil =>
      have hway : way = [] := by simpa using List.mem_of_getElem? h
      rw [hway]
      rfl
  | cons l ls ih =>
      rw [ways_cons, getElem?_flatMap fun rest => List.length_map _] at h
      obtain ⟨rest, hrest, h⟩ := Option.bind_eq_some_iff.1 h
      rw [List.getElem?_map] at h
      obtain ⟨a, ha, rfl⟩ := Option.map_eq_some_iff.1 h
      cases i with
      | zero => exact ha.symm
      | succ i => exact ih hrest i

theorem ways_eq_choices {ls : List (List α)} (h : ls ≠ []) : ways ls = choices ls := by
  rw [ways, if_neg (by simpa using h)]

/--
There are as many choices as the product of the lengths.  The `k`-th one takes from the
list at `i` the entry at a digit of `k`, where the lists before it are the lower digits, and
each combination of places has its number.
-/
theorem choices_in_order (ls : List (List α)) (h : ls ≠ []) :
    (choices ls).length = (ls.map List.length).prod ∧
    (∀ k way, (choices ls)[k]? = some way → way.length = ls.length ∧
      ∀ i l, ls[i]? = some l →
        ∃ a, l[k / ((ls.take i).map List.length).prod % l.length]? = some a ∧ way[i]? = some a) ∧
    ∀ ps, List.Forall₂ (fun p l => p < l.length) ps ls →
      ∃! k, k < (choices ls).length ∧ ∀ i l, ls[i]? = some l →
        ps[i]? = some (k / ((ls.take i).map List.length).prod % l.length) := by
  rw [← ways_eq_choices h, length_ways]
  refine ⟨rfl, ?_, ?_⟩
  · intro k way hway
    have hlength := (mem_ways.1 (List.mem_of_getElem? hway)).length_eq
    refine ⟨hlength, fun i l hl => ?_⟩
    have hi : i < way.length := hlength ▸ (List.getElem?_eq_some_iff.1 hl).1
    have hentry := getElem?_way hway i
    rw [getElem?_places, List.getElem?_map, hl, List.getElem?_eq_getElem hi, ← List.map_take]
      at hentry
    exact ⟨way[i], hentry.symm, List.getElem?_eq_getElem hi⟩
  · intro ps hps
    have hlength : ps.length = (ls.map List.length).length := by rw [hps.length_eq, List.length_map]
    have hplaces := places_eq_iff hlength
    simp only [List.getElem?_map, Option.map_eq_some_iff, forall_exists_index, and_imp,
      forall_apply_eq_imp_iff₂, ← List.map_take] at hplaces
    simp only [← hplaces]
    exact existsUnique_places (List.forall₂_map_right_iff.2 hps)

/-- The words of a phrase, each chosen from its alternatives. -/
theorem choices_dog_with_ball :
    [["dog"], ["with-a", "with-b"], ["bone", "ball", "stick"]] ≠ [] ∧
    (choices [["dog"], ["with-a", "with-b"], ["bone", "ball", "stick"]]).length = 6 ∧
    (∃ a, ["bone", "ball", "stick"][3 / (1 * 2) % 3]? = some a ∧
      ["dog", "with-b", "ball"][2]? = some a) ∧
    ∃! k, k < 6 ∧ ∀ i l, [["dog"], ["with-a", "with-b"], ["bone", "ball", "stick"]][i]? = some l →
      [0, 1, 1][i]? = some (k / (([["dog"], ["with-a", "with-b"],
        ["bone", "ball", "stick"]].take i).map List.length).prod % l.length) := by
  obtain ⟨hlength, hentries, hunique⟩ :=
    choices_in_order [["dog"], ["with-a", "with-b"], ["bone", "ball", "stick"]] (by simp)
  refine ⟨by simp, hlength, ?_, ?_⟩
  · exact (hentries 3 ["dog", "with-b", "ball"] rfl).2 2 _ rfl
  · rw [hlength] at hunique
    exact hunique [0, 1, 1] (by simp)

end TreeInsertion
