import Mathlib.Algebra.BigOperators.Fin
import Mathlib.Data.Fintype.BigOperators
import Sayiir.Interaction.Prog

/-!
# Protocols and budgets of interaction programs

What a program does can be judged from its text, whatever performs its operations
and whoever else is at work. A protocol has states; in each of them it says which
operations are allowed and which states an answer may lead to. Operations may also
cost something, depending on their answer. `Spends` folds this over a program with a
budget: every operation is allowed and paid for when its turn comes, whatever answers
the protocol expects have been given before. `Honours` is the case in which nothing
costs anything.

The children of a `par` node run next to each other, so they may only perform
operations that leave the state alone. They get shares of the budget, and so does what
comes after them.
-/

variable {Op : Type} {Resp : Op → Type} {R W γ : Type}

/-- The operations allowed in a state, and the states that an answer may lead to. -/
structure Protocol (Op : Type) (Resp : Op → Type) (γ : Type) where
  allows : γ → Op → Prop
  next : γ → (o : Op) → Resp o → γ → Prop

/-- Only the operations that leave the state as it is. -/
def Protocol.still (π : Protocol Op Resp γ) : Protocol Op Resp γ where
  allows g o := π.allows g o ∧ ∀ r g', π.next g o r g' → g' = g
  next := π.next

namespace Prog

variable {π : Protocol Op Resp γ} {α β : Type} {g : γ} {k : ℕ}

/-- The program keeps to the protocol from the state `g` on and spends at most `k`, and
`Q` holds of the state it ends in, of what is left, and of its result. -/
def Spends (cost : (o : Op) → Resp o → ℕ) : {α : Type} → Prog Op Resp R α →
    Protocol Op Resp γ → γ → ℕ → (γ → ℕ → α → Prop) → Prop
  | _, .pure a, _, g, k, Q => Q g k a
  | _, .op o c, π, g, k, Q => π.allows g o ∧ ∀ r g', π.next g o r g' →
      cost o r ≤ k ∧ (c r).Spends cost π g' (k - cost o r) Q
  | _, .par n _ cs c, π, g, k, Q => ∃ (ks : Fin n → ℕ) (rest : ℕ), (∑ i, ks i) + rest ≤ k
      ∧ (∀ i, (cs i).Spends cost π.still g (ks i) fun _ _ _ => True)
      ∧ ∀ rs, (c rs).Spends cost π g rest Q

/-- The program keeps to the protocol, whatever its operations cost. -/
def Honours (p : Prog Op Resp R α) (π : Protocol Op Resp γ) (g : γ) : Prop :=
  p.Spends (fun _ _ => 0) π g 0 fun _ _ _ => True

namespace Spends

variable {cost : (o : Op) → Resp o → ℕ}

theorem mono {p : Prog Op Resp R α} {Q Q' : γ → ℕ → α → Prop} (h : p.Spends cost π g k Q)
    (hQ : ∀ g k a, Q g k a → Q' g k a) : p.Spends cost π g k Q' := by
  induction p generalizing g k with
  | pure a => exact hQ g k a h
  | op o c ih =>
    refine ⟨h.1, fun r g' hr => ?_⟩
    obtain ⟨hcost, hc⟩ := h.2 r g' hr
    exact ⟨hcost, ih r hc hQ⟩
  | par n fatal cs c _ ih =>
    obtain ⟨ks, rest, hk, hcs, hc⟩ := h
    exact ⟨ks, rest, hk, hcs, fun rs => ih rs (hc rs) hQ⟩

theorem bind {p : Prog Op Resp R α} {f : α → Prog Op Resp R β} {Q : γ → ℕ → β → Prop}
    (h : p.Spends cost π g k fun g' k' a => (f a).Spends cost π g' k' Q) :
    (p.bind f).Spends cost π g k Q := by
  induction p generalizing g k with
  | pure a => exact h
  | op o c ih =>
    refine ⟨h.1, fun r g' hr => ?_⟩
    obtain ⟨hcost, hc⟩ := h.2 r g' hr
    exact ⟨hcost, ih r hc⟩
  | par n fatal cs c _ ih =>
    obtain ⟨ks, rest, hk, hcs, hc⟩ := h
    exact ⟨ks, rest, hk, hcs, fun rs => ih rs (hc rs)⟩

/-- An operation that costs nothing. -/
theorem op {o : Op} {c : Resp o → Prog Op Resp R α} {Q : γ → ℕ → α → Prop}
    (hcost : ∀ r, cost o r = 0) (hallows : π.allows g o)
    (hc : ∀ r g', π.next g o r g' → (c r).Spends cost π g' k Q) :
    (Prog.op o c).Spends cost π g k Q := by
  refine ⟨hallows, fun r g' hr => ?_⟩
  rw [hcost]
  exact ⟨Nat.zero_le k, hc r g' hr⟩

/-- What is added to the budget is left in the end. -/
theorem more {p : Prog Op Resp R α} {Q : γ → ℕ → α → Prop} (h : p.Spends cost π g k Q) (j : ℕ) :
    p.Spends cost π g (k + j) fun g' k' a => ∃ i, k' = i + j ∧ Q g' i a := by
  induction p generalizing g k with
  | pure a => exact ⟨k, rfl, h⟩
  | op o c ih =>
    refine ⟨h.1, fun r g' hr => ?_⟩
    obtain ⟨hcost, hc⟩ := h.2 r g' hr
    have hsub : k + j - cost o r = k - cost o r + j := by omega
    exact ⟨by omega, hsub ▸ ih r hc⟩
  | par n fatal cs c _ ih =>
    obtain ⟨ks, rest, hk, hcs, hc⟩ := h
    exact ⟨ks, rest + j, by omega, hcs, fun rs => ih rs (hc rs)⟩

/-- More operations may be allowed. -/
theorem weaken {p : Prog Op Resp R α} {allows allows' : γ → Op → Prop}
    {next : γ → (o : Op) → Resp o → γ → Prop} {Q : γ → ℕ → α → Prop}
    (h : p.Spends cost ⟨allows, next⟩ g k Q) (hallows : ∀ g o, allows g o → allows' g o) :
    p.Spends cost ⟨allows', next⟩ g k Q := by
  induction p generalizing g k allows allows' with
  | pure a => exact h
  | op o c ih =>
    refine ⟨hallows g o h.1, fun r g' hr => ?_⟩
    obtain ⟨hcost, hc⟩ := h.2 r g' hr
    exact ⟨hcost, ih r hc hallows⟩
  | par n fatal cs c ihcs ih =>
    obtain ⟨ks, rest, hk, hcs, hc⟩ := h
    exact ⟨ks, rest, hk, fun i => ihcs i (hcs i) fun g o ho => ⟨hallows g o ho.1, ho.2⟩,
      fun rs => ih rs (hc rs) hallows⟩

/-- What leaves the state alone ends in the state it has started in. -/
theorem of_still {p : Prog Op Resp R α} {Q : γ → ℕ → α → Prop}
    (h : p.Spends cost π.still g k Q) :
    p.Spends cost π g k fun g' k' a => g' = g ∧ Q g k' a := by
  induction p generalizing g k with
  | pure a => exact ⟨rfl, h⟩
  | op o c ih =>
    refine ⟨h.1.1, fun r g' hr => ?_⟩
    obtain ⟨hcost, hc⟩ := h.2 r g' hr
    obtain rfl := h.1.2 r g' hr
    exact ⟨hcost, ih r hc⟩
  | par n fatal cs c _ ih =>
    obtain ⟨ks, rest, hk, hcs, hc⟩ := h
    exact ⟨ks, rest, hk, fun i => (hcs i).weaken fun g o ho => ho.1, fun rs => ih rs (hc rs)⟩

theorem still {p : Prog Op Resp R α} {Q : γ → ℕ → α → Prop} (h : p.Spends cost π.still g k Q) :
    p.Spends cost π.still.still g k Q :=
  h.weaken fun _ _ ho => ⟨ho, ho.2⟩

/-- **A step of a program with a budget** changes nothing or performs an operation that
is allowed, and after every answer that the protocol expects, the operation has been paid
for and what remains has what is left. -/
theorem step {h : (o : Op) → W → Resp o × W} {p p' : Prog Op Resp R α} {w w' : W}
    {Q : γ → ℕ → α → Prop} (hs : Step h p w p' w') (hp : p.Spends cost π g k Q) :
    (w' = w ∧ ∃ k' ≤ k, p'.Spends cost π g k' Q)
      ∨ ∃ o, π.allows g o ∧ w' = (h o w).2 ∧ ∀ g', π.next g o (h o w).1 g' →
          ∃ k', k' + cost o (h o w).1 ≤ k ∧ p'.Spends cost π g' k' Q := by
  induction hs generalizing π g k with
  | @op _ o c w =>
    refine .inr ⟨o, hp.1, rfl, fun g' hg' => ?_⟩
    obtain ⟨hcost, hc⟩ := hp.2 _ g' hg'
    exact ⟨_, by omega, hc⟩
  | @child _ n fatal cs c w w' i c' _ ih =>
    obtain ⟨ks, rest, hk, hcs, hc⟩ := hp
    have hsplit : ∑ j, ks j = ks i + ∑ j ∈ Finset.univ \ {i}, ks j := by
      have h := Finset.sum_update_of_mem (Finset.mem_univ i) ks (ks i)
      rwa [Function.update_eq_self] at h
    -- the child pays from its own share
    have hpar : ∀ k', k' ≤ ks i → c'.Spends cost π.still g k' (fun _ _ _ => True) →
        (Prog.par n fatal (Function.update cs i c') c).Spends cost π g (k - (ks i - k')) Q := by
      intro k' hle hc'
      refine ⟨Function.update ks i k', rest, ?_, fun j => ?_, hc⟩
      · have hsum := Finset.sum_update_of_mem (Finset.mem_univ i) ks k'
        omega
      · by_cases hj : j = i
        · subst hj
          rwa [Function.update_self, Function.update_self]
        · rw [Function.update_of_ne hj, Function.update_of_ne hj]
          exact hcs j
    rcases ih (hcs i) with ⟨hw, k', hk', hc'⟩ | ⟨o, ho, hw, hc'⟩
    · exact .inl ⟨hw, _, by omega, hpar k' hk' hc'⟩
    · refine .inr ⟨o, ho.1, hw, fun g' hg' => ?_⟩
      obtain rfl := ho.2 _ g' hg'
      obtain ⟨k', hcost, hc''⟩ := hc' g' hg'
      exact ⟨_, by omega, hpar k' (by omega) hc''⟩
  | join _ =>
    obtain ⟨ks, rest, hk, hcs, hc⟩ := hp
    exact .inl ⟨rfl, rest, by omega, hc _⟩

end Spends

/-- A step of a program that honours a protocol. -/
theorem Honours.step {h : (o : Op) → W → Resp o × W} {p p' : Prog Op Resp R α} {w w' : W}
    (hs : Step h p w p' w') (hp : p.Honours π g) :
    (w' = w ∧ p'.Honours π g)
      ∨ ∃ o, π.allows g o ∧ w' = (h o w).2
        ∧ ∀ g', π.next g o (h o w).1 g' → p'.Honours π g' := by
  rcases Spends.step hs hp with ⟨hw, k', hk', hp'⟩ | ⟨o, ho, hw, hp'⟩
  · obtain rfl : k' = 0 := Nat.le_zero.mp hk'
    exact .inl ⟨hw, hp'⟩
  · refine .inr ⟨o, ho, hw, fun g' hg' => ?_⟩
    obtain ⟨k', hk', hp''⟩ := hp' g' hg'
    obtain rfl : k' = 0 := by omega
    exact hp''

end Prog
