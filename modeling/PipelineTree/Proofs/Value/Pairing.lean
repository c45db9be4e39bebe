import Mathlib.Data.List.Forall2

/-!
# Pairing — lists related item by item

What is known of two lists whose items are related one by one: each item has its partner, and what holds
between the items of one list holds between their partners.
-/

namespace PipelineTree

variable {α β : Type} {R : α → β → Prop} {as : List α} {bs : List β}

theorem exists_of_mem_left (h : List.Forall₂ R as bs) {a : α} (ha : a ∈ as) : ∃ b ∈ bs, R a b := by
  induction h with
  | nil => cases ha
  | @cons first b _ _ hfirst _ ih =>
    rcases List.mem_cons.1 ha with rfl | hrest
    · exact ⟨b, by simp, hfirst⟩
    · rcases ih hrest with ⟨b, hb, hab⟩
      exact ⟨b, by simp [hb], hab⟩

theorem exists_forall₂_iff : (∃ bs, List.Forall₂ R as bs) ↔ ∀ a ∈ as, ∃ b, R a b := by
  constructor
  · rintro ⟨bs, h⟩ a ha
    rcases exists_of_mem_left h ha with ⟨b, -, hab⟩
    exact ⟨b, hab⟩
  · intro h
    induction as with
    | nil => exact ⟨[], .nil⟩
    | cons a as ih =>
      rcases h a (by simp) with ⟨b, hab⟩
      rcases ih fun a' ha' => h a' (by simp [ha']) with ⟨bs, hrest⟩
      exact ⟨b :: bs, .cons hab hrest⟩

theorem exists_of_mem_right (h : List.Forall₂ R as bs) {b : β} (hb : b ∈ bs) : ∃ a ∈ as, R a b :=
  exists_of_mem_left h.flip hb

theorem forall₂_and {S : α → β → Prop} (h : List.Forall₂ R as bs) (hother : List.Forall₂ S as bs) :
    List.Forall₂ (fun a b => R a b ∧ S a b) as bs := by
  induction h with
  | nil => exact .nil
  | cons hfirst _ ih =>
    cases hother with
    | cons hotherFirst hothers => exact .cons ⟨hfirst, hotherFirst⟩ (ih hothers)

/-- What holds between partners need only be shown of items that are there. -/
theorem forall₂_of_mem {S : α → β → Prop} (h : List.Forall₂ R as bs)
    (himplies : ∀ a ∈ as, ∀ b, R a b → S a b) : List.Forall₂ S as bs := by
  induction h with
  | nil => exact .nil
  | cons hfirst _ ih =>
    refine .cons (himplies _ List.mem_cons_self _ hfirst) (ih ?_)
    exact fun a ha b hab => himplies a (List.mem_cons_of_mem _ ha) b hab

end PipelineTree
