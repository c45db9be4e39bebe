import Mathlib.Data.List.Forall2
import PipelineTree.Error.Run

/-!
# Comparison — two computations side by side

A `Comparison` says when the results of two computations agree, given what it means for their values to
agree.  It is kept by sequencing, so two programs of the same shape agree once their parts do.

`Comparison.through` compares errors as far as a view of them shows.  `Comparison.upTo` takes some errors
for alike and excuses others of the first computation: where it fails with one of those, the second may end
in any way.  `Comparison.unless` only excuses.
-/

namespace PipelineTree

theorem Run.mapM_eq_ok_iff {ε α β : Type} {f : α → Except ε β} {items : List α} {values : List β} :
    items.mapM f = .ok values ↔ List.Forall₂ (fun item value => f item = .ok value) items values := by
  induction items generalizing values with
  | nil => cases values <;> simp [pure, Except.pure]
  | cons item items ih =>
    rw [List.mapM_cons, List.forall₂_cons_left_iff, Run.bind_eq_ok_iff]
    simp only [Run.bind_eq_ok_iff, ih]
    constructor
    · rintro ⟨value, hvalue, others, hothers, ⟨⟩⟩
      exact ⟨value, others, hvalue, hothers, rfl⟩
    · rintro ⟨value, others, hvalue, hothers, rfl⟩
      exact ⟨value, hvalue, others, hothers, rfl⟩

theorem Run.exists_of_mapM_eq_error {ε α β : Type} {f : α → Except ε β} {items : List α} {error : ε}
    (h : items.mapM f = .error error) : ∃ item ∈ items, f item = .error error := by
  induction items with
  | nil => cases h
  | cons item items ih =>
    rw [List.mapM_cons] at h
    rcases Run.bind_eq_error_iff.1 h with hitem | ⟨value, -, hrest⟩
    · exact ⟨item, by simp, hitem⟩
    · rcases Run.bind_eq_error_iff.1 hrest with hitems | ⟨values, -, hvalues⟩
      · rcases ih hitems with ⟨other, hother, herror⟩
        exact ⟨other, by simp [hother], herror⟩
      · cases hvalues

/-- A relation of results that holds of related values and of equal errors, and is kept by sequencing. -/
structure Comparison where
  Holds : {α β : Type} → (α → β → Prop) → Except Error α → Except Error β → Prop
  ok : ∀ {α β : Type} {R : α → β → Prop} {a : α} {b : β}, R a b → Holds R (.ok a) (.ok b)
  error : ∀ {α β : Type} {R : α → β → Prop} (error : Error), Holds R (.error error) (.error error)
  bind : ∀ {α β γ δ : Type} {R : α → β → Prop} {S : γ → δ → Prop} {x : Except Error α}
    {y : Except Error β} {f : α → Except Error γ} {g : β → Except Error δ},
    Holds R x y → (∀ a b, R a b → Holds S (f a) (g b)) → Holds S (x >>= f) (y >>= g)

namespace Comparison

variable (C : Comparison) {α β γ δ : Type} {R : α → β → Prop} {S : γ → δ → Prop}

theorem map {x : Except Error α} {y : Except Error β} {f : α → γ} {g : β → δ}
    (hxy : C.Holds R x y) (hfg : ∀ a b, R a b → S (f a) (g b)) :
    C.Holds S (x.map f) (y.map g) := by
  have hbind : C.Holds S (x >>= fun a => .ok (f a)) (y >>= fun b => .ok (g b)) :=
    C.bind hxy fun a b hab => C.ok (hfg a b hab)
  cases x <;> cases y <;> exact hbind

theorem bind_eq {x y : Except Error α} {f : α → Except Error γ} {g : α → Except Error δ}
    (hxy : C.Holds Eq x y) (hfg : ∀ a, C.Holds S (f a) (g a)) : C.Holds S (x >>= f) (y >>= g) := by
  refine C.bind hxy ?_
  rintro a _ rfl
  exact hfg a

theorem mono {R' : α → β → Prop} {x : Except Error α} {y : Except Error β} (hxy : C.Holds R x y)
    (himplies : ∀ a b, R a b → R' a b) : C.Holds R' x y := by
  have hbind : C.Holds R' (x >>= .ok) (y >>= .ok) :=
    C.bind hxy fun a b hab => C.ok (himplies a b hab)
  cases x <;> cases y <;> exact hbind

theorem of_eq (x : Except Error α) : C.Holds Eq x x := by
  cases x with
  | error error => exact C.error error
  | ok value => exact C.ok rfl

theorem mapM {f : α → Except Error γ} {g : β → Except Error δ} {as : List α} {bs : List β}
    (hlists : List.Forall₂ R as bs) (hfg : ∀ a b, R a b → C.Holds S (f a) (g b)) :
    C.Holds (List.Forall₂ S) (as.mapM f) (bs.mapM g) := by
  induction hlists with
  | nil => exact C.ok .nil
  | cons hab _ ih =>
    rw [List.mapM_cons, List.mapM_cons]
    refine C.bind (hfg _ _ hab) ?_
    intro c d hcd
    exact C.bind ih fun cs ds hcds => C.ok (.cons hcd hcds)

end Comparison

/-- Results that are related, or fail with errors that look the same. -/
def AgreeThrough (view : Error → Error) {α β : Type} (R : α → β → Prop) :
    Except Error α → Except Error β → Prop
  | .ok a, .ok b => R a b
  | .error e, .error f => view e = view f
  | _, _ => False

/-- The comparison through a view of errors. -/
def Comparison.through (view : Error → Error) : Comparison where
  Holds := AgreeThrough view
  ok h := h
  error _ := rfl
  bind {_ _ _ _ _ _ x y _ _} hxy hfg := by
    cases x <;> cases y <;> first | exact hxy.elim | exact hxy | exact hfg _ _ hxy

theorem agreeThrough_eq_iff {view : Error → Error} {α : Type} {x y : Except Error α} :
    AgreeThrough view Eq x y ↔ x.mapError view = y.mapError view := by
  cases x <;> cases y <;> simp [AgreeThrough, Except.mapError]

/-- Results that are related, or fail with one error, unless the first one fails with an excuse. -/
def AgreeUnless (excused : Error → Prop) {α β : Type} (R : α → β → Prop) :
    Except Error α → Except Error β → Prop
  | .ok a, .ok b => R a b
  | .ok _, .error _ => False
  | .error e, .ok _ => excused e
  | .error e, .error f => excused e ∨ e = f

/--
Results that are related, or fail with errors that are alike, unless the first one fails with an excuse.
-/
def AgreeUpTo (excused : Error → Prop) (alike : Error → Error → Prop) {α β : Type}
    (R : α → β → Prop) : Except Error α → Except Error β → Prop
  | .ok a, .ok b => R a b
  | .ok _, .error _ => False
  | .error e, .ok _ => excused e
  | .error e, .error f => excused e ∨ alike e f

section UpTo

variable {excused : Error → Prop} {alike : Error → Error → Prop} {α β γ δ : Type}
  {R : α → β → Prop} {S : γ → δ → Prop}

theorem AgreeUpTo.bind {x : Except Error α} {y : Except Error β} {f : α → Except Error γ}
    {g : β → Except Error δ} (hxy : AgreeUpTo excused alike R x y)
    (hfg : ∀ a b, R a b → AgreeUpTo excused alike S (f a) (g b)) :
    AgreeUpTo excused alike S (x >>= f) (y >>= g) := by
  cases x with
  | ok a =>
    cases y with
    | ok b => exact hfg a b hxy
    | error f => exact hxy.elim
  | error e =>
    cases y with
    | error f => exact hxy
    | ok b =>
      -- The first computation has stopped with an excuse, so the second may go on as it likes.
      change AgreeUpTo excused alike S (.error e) (g b)
      cases g b with
      | ok d => exact hxy
      | error f => exact .inl hxy

theorem AgreeUpTo.of_excused {e : Error} (h : excused e) (y : Except Error β) :
    AgreeUpTo excused alike R (.error e) y := by
  cases y with
  | ok b => exact h
  | error f => exact .inl h

/-- How two computations that agree may end: with an excuse, with one value, or with errors that are alike. -/
theorem AgreeUpTo.endings {x y : Except Error α} (h : AgreeUpTo excused alike Eq x y) :
    (∃ error, x = .error error ∧ excused error) ∨ (∃ value, x = .ok value ∧ y = .ok value) ∨
      ∃ error other, x = .error error ∧ y = .error other ∧ alike error other := by
  cases x with
  | ok a =>
    cases y with
    | ok b =>
      cases h
      exact .inr (.inl ⟨a, rfl, rfl⟩)
    | error f => exact h.elim
  | error e =>
    cases y with
    | ok b => exact .inl ⟨e, rfl, h⟩
    | error f =>
      rcases h with hexcused | halike
      · exact .inl ⟨e, rfl, hexcused⟩
      · exact .inr (.inr ⟨e, f, rfl, rfl, halike⟩)

theorem agreeUnless_iff {x : Except Error α} {y : Except Error β} :
    AgreeUnless excused R x y ↔ AgreeUpTo excused Eq R x y := by
  cases x <;> cases y <;> exact Iff.rfl

end UpTo

/-- The comparison that excuses some errors of the first computation, and takes some errors for alike. -/
def Comparison.upTo (excused : Error → Prop) (alike : Error → Error → Prop)
    (refl : ∀ error, alike error error) : Comparison where
  Holds := AgreeUpTo excused alike
  ok h := h
  error error := .inr (refl error)
  bind := AgreeUpTo.bind

/-- The comparison that excuses some errors of the first computation. -/
def Comparison.unless (excused : Error → Prop) : Comparison where
  Holds := AgreeUnless excused
  ok h := h
  error _ := .inr rfl
  bind hxy hfg := by
    simp only [agreeUnless_iff] at hxy hfg ⊢
    exact hxy.bind hfg

theorem AgreeUnless.of_excused {excused : Error → Prop} {α β : Type} {R : α → β → Prop} {e : Error}
    (h : excused e) (y : Except Error β) : AgreeUnless excused R (.error e) y :=
  agreeUnless_iff.2 (AgreeUpTo.of_excused h y)

theorem AgreeUnless.eq {excused : Error → Prop} {α : Type} {x y : Except Error α}
    (h : AgreeUnless excused Eq x y) (hnone : ∀ e, x = .error e → ¬excused e) : y = x := by
  cases x with
  | ok a =>
    cases y with
    | ok b => exact congrArg Except.ok (Eq.symm h)
    | error f => exact h.elim
  | error e =>
    cases y with
    | ok b => exact absurd h (hnone e rfl)
    | error f =>
      rcases h with hexcused | hsame
      · exact absurd hexcused (hnone e rfl)
      · exact congrArg Except.error hsame.symm

end PipelineTree
