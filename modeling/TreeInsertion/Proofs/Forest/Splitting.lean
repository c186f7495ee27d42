import Mathlib.Data.List.Nodup
import TreeInsertion.Proofs.Forest.Stems

/-!
# How the edges of an account split

If no tree is put in twice, every edge has one stem.  So the stems tell which edges came
with which part of an account, and two accounts with the same edges split them alike.
-/

namespace TreeInsertion

open Relation

variable {W : Type}

namespace Analysis

/-- Whether the edges put no tree in twice, and not the given one. -/
def Distinct (E : Analysis W) (t : AnchoredTree W) : Prop :=
  (t :: E.map Edge.second).Nodup

def Same (E F : Analysis W) : Prop :=
  ∀ e, e ∈ E ↔ e ∈ F

variable {E F E' F' : Analysis W} {t u : AnchoredTree W} {d e k s s' : Edge (AnchoredTree W)}

namespace Distinct

theorem second_ne (h : E.Distinct t) (he : e ∈ E) : e.second ≠ t := by
  rintro rfl
  exact (List.nodup_cons.1 h).1 (List.mem_map_of_mem he)

theorem eq_of_second_eq (h : E.Distinct t) (hd : d ∈ E) (he : e ∈ E) (heq : d.second = e.second) :
    d = e :=
  List.inj_on_of_nodup_map (List.nodup_cons.1 h).2 hd he heq

theorem left (h : Distinct (E ++ F) t) : E.Distinct t := by
  refine List.Nodup.sublist ?_ h
  exact ((List.sublist_append_left E F).map Edge.second).cons_cons t

theorem right (h : Distinct (E ++ F) t) : F.Distinct t := by
  refine List.Nodup.sublist ?_ h
  exact ((List.sublist_append_right E F).map Edge.second).cons_cons t

/-- Below an edge, the tree that it puts in is not put in again. -/
theorem attached (h : Distinct (F ++ [k]) t) : F.Distinct k.second := by
  have hnodup := (List.nodup_cons.1 h).2
  rw [List.map_append, List.map_singleton] at hnodup
  exact (List.perm_append_singleton _ _).nodup hnodup

theorem not_mem_of_attached (h : Distinct (E ++ (F ++ [k])) t) : k ∉ E ∧ k ∉ F := by
  have hnodup := (List.nodup_cons.1 h).2
  rw [List.map_append, List.nodup_append] at hnodup
  constructor
  · intro hk
    exact hnodup.2.2 _ (List.mem_map_of_mem hk) k.second (by simp) rfl
  · intro hk
    exact h.right.attached.second_ne hk rfl

/-- An edge has one stem. -/
theorem stem_unique (h : E.Distinct t) (hs : s ∈ E) (hs' : s' ∈ E) (hfirst : s.first = t)
    (hfirst' : s'.first = t) (hcarries : E.Carries s e) (hcarries' : E.Carries s' e) : s = s' := by
  induction hcarries with
  | refl =>
      cases hcarries' with
      | refl => rfl
      | tail hbefore hlast =>
          exact absurd (hlast.2.symm.trans hfirst) (h.second_ne (Carries.mem hbefore hs'))
  | tail hbefore hlast ih =>
      cases hcarries' with
      | refl => exact absurd (hlast.2.symm.trans hfirst') (h.second_ne (Carries.mem hbefore hs))
      | tail hbefore' hlast' =>
          have heq := h.eq_of_second_eq (Carries.mem hbefore hs) (Carries.mem hbefore' hs')
            (hlast.2.symm.trans hlast'.2)
          exact ih (heq ▸ hbefore')

/-- An edge at the tree of the stems is a stem. -/
theorem of_first_eq {P : Edge (AnchoredTree W) → Prop} (h : E.Distinct t)
    (hstems : E.StemsAre fun s => s.first = t ∧ P s) (he : e ∈ E) (hfirst : e.first = t) : P e := by
  obtain ⟨s, hs, ⟨hfirst', hP⟩, hcarries⟩ := hstems e he
  rwa [h.stem_unique hs he hfirst' hfirst hcarries .refl] at hP

/-- Below an edge, nothing is put into a tree that is not put in there. -/
theorem first_ne (h : Distinct (F ++ [k]) t) (hF : F.StemsAre fun s => s.first = k.second)
    (he : e ∈ F) : e.first ≠ t := by
  rcases List.mem_cons.1 (hF.first_mem he) with hfirst | hput
  · rw [hfirst]
    exact h.second_ne (by simp)
  · obtain ⟨d, hd, hsecond⟩ := List.mem_map.1 hput
    rw [← hsecond]
    exact h.second_ne (List.mem_append_left _ hd)

/-- The edges of a part are those whose stem has the property of the part. -/
theorem mem_iff_exists_stem {P : Edge (AnchoredTree W) → Prop} {G : Analysis W}
    (h : G.Distinct t) (hG : ∀ e, e ∈ G ↔ e ∈ E ∨ e ∈ F)
    (hE : E.StemsAre fun s => s.first = t ∧ P s) (hF : F.StemsAre fun s => s.first = t ∧ ¬ P s) :
    e ∈ E ↔ ∃ s ∈ G, (s.first = t ∧ P s) ∧ G.Carries s e := by
  have hEG : E ⊆ G := fun d hd => (hG d).2 (Or.inl hd)
  have hFG : F ⊆ G := fun d hd => (hG d).2 (Or.inr hd)
  constructor
  · intro he
    obtain ⟨s, hs, hP, hcarries⟩ := hE e he
    exact ⟨s, hEG hs, hP, hcarries.mono hEG⟩
  · rintro ⟨s, hs, ⟨hfirst, hP⟩, hcarries⟩
    rcases (hG e).1 (Carries.mem hcarries hs) with he | he
    · exact he
    · obtain ⟨s', hs', ⟨hfirst', hnot⟩, hcarries'⟩ := hF e he
      cases h.stem_unique hs (hFG hs') hfirst hfirst' hcarries (hcarries'.mono hFG)
      exact absurd hP hnot

/-- Two analyses with the same edges split alike at a property of stems. -/
theorem split {P : Edge (AnchoredTree W) → Prop} (h : Distinct (E ++ F) t)
    (hsame : Same (E ++ F) (E' ++ F'))
    (hE : E.StemsAre fun s => s.first = t ∧ P s) (hF : F.StemsAre fun s => s.first = t ∧ ¬ P s)
    (hE' : E'.StemsAre fun s => s.first = t ∧ P s)
    (hF' : F'.StemsAre fun s => s.first = t ∧ ¬ P s) : E.Same E' ∧ F.Same F' := by
  have hmem (e : Edge (AnchoredTree W)) : e ∈ E ++ F ↔ e ∈ E ∨ e ∈ F := List.mem_append
  have hmem' (e : Edge (AnchoredTree W)) : e ∈ E ++ F ↔ e ∈ E' ∨ e ∈ F' :=
    (hsame e).trans List.mem_append
  have hnotnot {G : Analysis W} (hG : G.StemsAre fun s => s.first = t ∧ P s) :
      G.StemsAre fun s => s.first = t ∧ ¬ ¬ P s := hG.imp fun s hs => ⟨hs.1, not_not_intro hs.2⟩
  refine ⟨fun e => ?_, fun e => ?_⟩
  · rw [mem_iff_exists_stem h hmem hE hF, mem_iff_exists_stem h hmem' hE' hF']
  · rw [mem_iff_exists_stem h (fun e => (hmem e).trans or_comm) hF (hnotnot hE),
      mem_iff_exists_stem h (fun e => (hmem' e).trans or_comm) hF' (hnotnot hE')]

/-- Two analyses with the same edges and the same last one split alike before it. -/
theorem split_attached (h : Distinct (E ++ (F ++ [k])) t) (h' : Distinct (E' ++ (F' ++ [k])) t)
    (hsame : Same (E ++ (F ++ [k])) (E' ++ (F' ++ [k]))) (hk : k.first = t)
    (hE : E.StemsAre fun s => s.first = t) (hF : F.StemsAre fun s => s.first = k.second)
    (hE' : E'.StemsAre fun s => s.first = t) (hF' : F'.StemsAre fun s => s.first = k.second) :
    E.Same E' ∧ F.Same F' := by
  have hnew := h.not_mem_of_attached
  have hnew' := h'.not_mem_of_attached
  obtain ⟨hfirst, hlast⟩ := h.split (P := fun s => s ≠ k) hsame
    (hE.imp_of_mem fun s hs hst => ⟨hst, fun heq => hnew.1 (heq ▸ hs)⟩)
    (.attached hF ⟨hk, by simp⟩)
    (hE'.imp_of_mem fun s hs hst => ⟨hst, fun heq => hnew'.1 (heq ▸ hs)⟩)
    (.attached hF' ⟨hk, by simp⟩)
  refine ⟨hfirst, fun e => ?_⟩
  have hmem := hlast e
  rw [List.mem_append, List.mem_append, List.mem_singleton] at hmem
  by_cases heq : e = k
  · subst heq
    exact iff_of_false hnew.2 hnew'.2
  · simpa [heq] using hmem

/-- The last edges are the same, unless each of them came up earlier on the other side. -/
theorem last_eq {k' : Edge (AnchoredTree W)} (h : Distinct (E ++ (F ++ [k])) t)
    (h' : Distinct (E' ++ (F' ++ [k'])) t)
    (hsame : Same (E ++ (F ++ [k])) (E' ++ (F' ++ [k']))) (hk : k.first = t) (hk' : k'.first = t)
    (hF : F.StemsAre fun s => s.first = k.second) (hF' : F'.StemsAre fun s => s.first = k'.second)
    (hnot : ¬ (k ∈ E' ∧ k' ∈ E)) : k = k' := by
  by_contra hne
  have hmem : k ∈ E' := by
    have hk := (hsame k).1 (by simp)
    simp only [List.mem_append, List.mem_singleton, hne, or_false] at hk
    refine hk.resolve_right fun hlate => h'.right.first_ne hF' hlate ‹_›
  have hmem' : k' ∈ E := by
    have hk' := (hsame k').2 (by simp)
    simp only [List.mem_append, List.mem_singleton, Ne.symm hne, or_false] at hk'
    refine hk'.resolve_right fun hlate => h.right.first_ne hF hlate ‹_›
  exact hnot ⟨hmem, hmem'⟩

end Distinct

end Analysis

end TreeInsertion
