import Mathlib.Data.Nat.Notation

/-!
# Walks of a labelled machine

A machine is a total function that performs an action in a state. A walk is a
finite sequence of actions each of which meets a condition in the state it is
taken in; the condition is where assumptions about the environment and about the
schedule go. What one permitted action preserves, every walk preserves.

A path is the same for a machine whose steps are a labelled relation.
-/

namespace Sayiir

variable {α σ : Type*} {step : α → σ → σ} {C D : α → σ → Prop} {s t u : σ}

/-- `t` is reached from `s` by actions that meet `C`. -/
inductive Walk (step : α → σ → σ) (C : α → σ → Prop) (s : σ) : σ → Prop
  | refl : Walk step C s s
  | tail {t : σ} (a : α) : Walk step C s t → C a t → Walk step C s (step a t)

namespace Walk

theorem single (a : α) (h : C a s) : Walk step C s (step a s) := .tail a .refl h

theorem mono (hCD : ∀ a t, C a t → D a t) (h : Walk step C s t) : Walk step D s t := by
  induction h with
  | refl => exact .refl
  | tail a _ ha ih => exact .tail a ih (hCD a _ ha)

theorem trans (h : Walk step C s t) (h' : Walk step C t u) : Walk step C s u := by
  induction h' with
  | refl => exact h
  | tail a _ ha ih => exact .tail a ih ha

/-- **What every permitted action preserves holds in every state reached.** -/
theorem invariant {I : σ → Prop} (h : Walk step C s t) (h0 : I s)
    (hstep : ∀ a t, I t → C a t → I (step a t)) : I t := by
  induction h with
  | refl => exact h0
  | tail a _ ha ih => exact hstep a _ ih ha

/-- An invariant that needs another one on the way. -/
theorem invariant_of {I J : σ → Prop} (h : Walk step C s t)
    (hJ : ∀ {t}, Walk step C s t → J t) (h0 : I s)
    (hstep : ∀ a t, J t → I t → C a t → I (step a t)) : I t := by
  induction h with
  | refl => exact h0
  | tail a hw ha ih => exact hstep a _ (hJ hw) ih ha

end Walk

/-- Perform a list of actions. -/
def perform (step : α → σ → σ) : List α → σ → σ
  | [], s => s
  | a :: as, s => perform step as (step a s)

/-- Every action of the list meets `C` when its turn comes. -/
def Permitted (step : α → σ → σ) (C : α → σ → Prop) : List α → σ → Prop
  | [], _ => True
  | a :: as, s => C a s ∧ Permitted step C as (step a s)

instance decidablePermitted [∀ a s, Decidable (C a s)] :
    (as : List α) → (s : σ) → Decidable (Permitted step C as s)
  | [], _ => .isTrue trivial
  | a :: as, s =>
    have := decidablePermitted as (step a s)
    inferInstanceAs (Decidable (_ ∧ _))

theorem perform_append (as bs : List α) (s : σ) :
    perform step (as ++ bs) s = perform step bs (perform step as s) := by
  induction as generalizing s with
  | nil => rfl
  | cons a as ih => exact ih (step a s)

theorem permitted_append (as bs : List α) (s : σ) : Permitted step C (as ++ bs) s
    ↔ Permitted step C as s ∧ Permitted step C bs (perform step as s) := by
  induction as generalizing s with
  | nil => exact (true_and _).to_iff.symm
  | cons a as ih => exact (and_congr_right' (ih (step a s))).trans and_assoc.symm

/-- A list of permitted actions is a walk. -/
theorem Walk.perform {as : List α} (h : Permitted step C as s) :
    Walk step C s (perform step as s) := by
  induction as generalizing s with
  | nil => exact .refl
  | cons a as ih => exact (Walk.single a h.1).trans (ih h.2)

/-! ## Machines with a step relation -/

/-- `t` is reached from `s` by steps whose labels meet `C` in the state they are taken in. -/
inductive Path (step : α → σ → σ → Prop) (C : α → σ → Prop) (s : σ) : σ → Prop
  | refl : Path step C s s
  | tail {t u : σ} (a : α) : Path step C s t → C a t → step a t u → Path step C s u

/-- **What every permitted step preserves holds in every state of a path.** -/
theorem Path.invariant {step : α → σ → σ → Prop} {I : σ → Prop} (h : Path step C s t) (h0 : I s)
    (hstep : ∀ a t u, I t → C a t → step a t u → I u) : I t := by
  induction h with
  | refl => exact h0
  | tail a _ ha hs ih => exact hstep a _ _ ih ha hs

theorem Path.trans {step : α → σ → σ → Prop} (h : Path step C s t) (h' : Path step C t u) :
    Path step C s u := by
  induction h' with
  | refl => exact h
  | tail a _ ha hs ih => exact .tail a ih ha hs

/-- **A simulation**: if every permitted step is matched by a path, so is every path. -/
theorem Path.simulate {β τ : Type*} {step : α → σ → σ → Prop} {step' : β → τ → τ → Prop}
    {D : β → τ → Prop} {R : σ → τ → Prop} {s' : τ} (h : Path step C s t) (h0 : R s s')
    (hstep : ∀ a t u t', R t t' → C a t → step a t u → ∃ u', Path step' D t' u' ∧ R u u') :
    ∃ t', Path step' D s' t' ∧ R t t' := by
  induction h with
  | refl => exact ⟨s', .refl, h0⟩
  | tail a _ ha hs ih =>
    obtain ⟨t', hpath, ht⟩ := ih
    obtain ⟨u', hpath', hu⟩ := hstep a _ _ t' ht ha hs
    exact ⟨u', hpath.trans hpath', hu⟩

end Sayiir
