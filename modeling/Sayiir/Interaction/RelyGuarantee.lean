import Sayiir.Interaction.Prog
import Mathlib.Logic.Relation

/-!
# Rely-guarantee reasoning about interaction programs

`Valid h E G Q p w` says of the program `p`, started in the world `w` among
environment steps `E`, that each of its own steps is allowed by `G` and that
whenever it has finished with a result the postcondition `Q` holds. The
judgement is about every reachable configuration, not only about finished runs,
so it speaks of a program that is killed half way as well.

The rules follow the constructors of `Prog`, plus sequencing. In a `par` node
every child runs in an environment that also contains the steps of its siblings.
-/

namespace Prog

open Relation (ReflTransGen)

variable {Op : Type} {Resp : Op → Type} {R W : Type} {h : (o : Op) → W → Resp o × W}
  {E E' G G' : W → W → Prop} {α β : Type}

/-- Every reachable step of `p` is allowed by `G`, and `Q` holds whenever `p` is finished. -/
def Valid (h : (o : Op) → W → Resp o × W) (E G : W → W → Prop) (Q : α → W → Prop)
    (p : Prog Op Resp R α) (w : W) : Prop :=
  ∀ p' w', Reach h E p w p' w' →
    (∀ p'' w'', Step h p' w' p'' w'' → G w' w'') ∧ ∀ a, p' = .pure a → Q a w'

theorem Reach.env_star {p p' : Prog Op Resp R α} {w w' w'' : W} (hr : Reach h E p w p' w')
    (he : ReflTransGen E w' w'') : Reach h E p w p' w'' := by
  induction he with
  | refl => exact hr
  | tail _ he ih => exact ih.env he

theorem reach_pure_inv {a : α} {w w' : W} {p' : Prog Op Resp R α}
    (hr : Reach h E (.pure a) w p' w') : p' = .pure a ∧ ReflTransGen E w w' := by
  induction hr with
  | refl => exact ⟨rfl, .refl⟩
  | step _ hs ih => exact absurd (ih.1 ▸ hs) not_step_pure
  | env _ he ih => exact ⟨ih.1, ih.2.tail he⟩

theorem reach_op_inv {o : Op} {k : Resp o → Prog Op Resp R α} {w w' : W}
    {p' : Prog Op Resp R α} (hr : Reach h E (.op o k) w p' w') :
    (p' = .op o k ∧ ReflTransGen E w w')
      ∨ ∃ v, ReflTransGen E w v ∧ Reach h E (k (h o v).1) (h o v).2 p' w' := by
  induction hr with
  | refl => exact Or.inl ⟨rfl, .refl⟩
  | step _ hs ih =>
    rcases ih with ⟨rfl, hE⟩ | ⟨v, hE, hr⟩
    · obtain ⟨rfl, rfl⟩ := step_op_inv hs
      exact Or.inr ⟨_, hE, .refl⟩
    · exact Or.inr ⟨v, hE, hr.step hs⟩
  | env _ he ih =>
    rcases ih with ⟨rfl, hE⟩ | ⟨v, hE, hr⟩
    · exact Or.inl ⟨rfl, hE.tail he⟩
    · exact Or.inr ⟨v, hE, hr.env he⟩

/-- A run of a `par` node stays in the node while its children run, or has joined them. -/
theorem reach_par_inv {n : Nat} {fatal : R → Bool} {cs : Fin n → Prog Op Resp R R}
    {k : List (Fin n × R) → Prog Op Resp R α} {w w' : W} {p' : Prog Op Resp R α}
    (hG : ∀ i c v, Reach h (fun u u' => E u u' ∨ G u u') (cs i) w c v →
      ∀ c' v', Step h c v c' v' → G v v')
    (hr : Reach h E (.par n fatal cs k) w p' w') :
    (∃ cs', p' = .par n fatal cs' k ∧ ReflTransGen (fun u u' => E u u' ∨ G u u') w w'
        ∧ ∀ i, Reach h (fun u u' => E u u' ∨ G u u') (cs i) w (cs' i) w')
      ∨ ∃ cs' rs v, Joined fatal cs' rs ∧ ReflTransGen (fun u u' => E u u' ∨ G u u') w v
        ∧ (∀ i, Reach h (fun u u' => E u u' ∨ G u u') (cs i) w (cs' i) v)
        ∧ Reach h E (k rs) v p' w' := by
  induction hr with
  | refl => exact Or.inl ⟨cs, rfl, .refl, fun _ => .refl⟩
  | @step q q' v v' _ hs ih =>
    rcases ih with ⟨cs', rfl, hw, hcs⟩ | ⟨cs', rs, u, hj, hw, hcs, hr⟩
    · rcases step_par_inv hs with ⟨i, c', hc, rfl⟩ | ⟨rs, hj, rfl, rfl⟩
      · -- one child moves; for its siblings that is a step of the environment
        have hg : G v v' := hG i _ _ (hcs i) _ _ hc
        refine Or.inl ⟨_, rfl, hw.tail (Or.inr hg), fun j => ?_⟩
        by_cases hji : j = i
        · subst hji
          rw [Function.update_self]
          exact (hcs j).step hc
        · rw [Function.update_of_ne hji]
          exact (hcs j).env (Or.inr hg)
      · exact Or.inr ⟨cs', rs, v', hj, hw, hcs, .refl⟩
    · exact Or.inr ⟨cs', rs, u, hj, hw, hcs, hr.step hs⟩
  | env _ he ih =>
    rcases ih with ⟨cs', rfl, hw, hcs⟩ | ⟨cs', rs, u, hj, hw, hcs, hr⟩
    · exact Or.inl ⟨cs', rfl, hw.tail (Or.inl he), fun i => (hcs i).env (Or.inl he)⟩
    · exact Or.inr ⟨cs', rs, u, hj, hw, hcs, hr.env he⟩

namespace Valid

variable {Q Q' : α → W → Prop} {p : Prog Op Resp R α} {w : W}

theorem post (hv : Valid h E G Q p w) {a : α} {w' : W}
    (hr : Reach h E p w (.pure a) w') : Q a w' :=
  (hv _ _ hr).2 a rfl

theorem mono (hE : ∀ w w', E' w w' → E w w') (hG : ∀ w w', G w w' → G' w w')
    (hQ : ∀ a w, Q a w → Q' a w) (hv : Valid h E G Q p w) : Valid h E' G' Q' p w := by
  intro p' w' hr
  obtain ⟨hg, hq⟩ := hv p' w' (hr.mono hE)
  exact ⟨fun _ _ hs => hG _ _ (hg _ _ hs), fun a ha => hQ _ _ (hq a ha)⟩

theorem post_mono (hv : Valid h E G Q p w) (hQ : ∀ a w, Q a w → Q' a w) :
    Valid h E G Q' p w :=
  hv.mono (fun _ _ h => h) (fun _ _ h => h) hQ

theorem pure {a : α} (hQ : ∀ w', ReflTransGen E w w' → Q a w') :
    Valid h E G Q (.pure a : Prog Op Resp R α) w := by
  intro p' w' hr
  obtain ⟨rfl, hE⟩ := reach_pure_inv hr
  refine ⟨fun _ _ hs => absurd hs not_step_pure, ?_⟩
  intro b hb
  cases hb
  exact hQ w' hE

theorem op {o : Op} {k : Resp o → Prog Op Resp R α}
    (hk : ∀ w', ReflTransGen E w w' →
      G w' (h o w').2 ∧ Valid h E G Q (k (h o w').1) (h o w').2) :
    Valid h E G Q (.op o k) w := by
  intro p' w' hr
  rcases reach_op_inv hr with ⟨rfl, hE⟩ | ⟨v, hE, hr⟩
  · refine ⟨fun p'' w'' hs => ?_, fun a ha => by cases ha⟩
    obtain ⟨-, rfl⟩ := step_op_inv hs
    exact (hk w' hE).1
  · exact (hk v hE).2 p' w' hr

theorem bind {Q' : β → W → Prop} {f : α → Prog Op Resp R β} (hp : Valid h E G Q p w)
    (hf : ∀ a w', Reach h E p w (.pure a) w' → Q a w' → Valid h E G Q' (f a) w') :
    Valid h E G Q' (p.bind f) w := by
  intro q w' hr
  rcases reach_bind_inv hr with ⟨p', hp', rfl⟩ | ⟨a, v, hp', hq⟩
  · refine ⟨fun q' w'' hs => ?_, fun b hb => ?_⟩
    · rcases step_bind_inv hs with ⟨a, rfl⟩ | ⟨p'', hs', -⟩
      · exact (hf a w' hp' (hp.post hp') _ _ .refl).1 _ _ hs
      · exact (hp p' w' hp').1 _ _ hs'
    · cases p' with
      | pure a => exact (hf a w' hp' (hp.post hp') _ _ .refl).2 b hb
      | op o k => cases hb
      | par n fatal cs k => cases hb
  · exact hf a v hp' (hp.post hp') _ _ hq

/-- A result may be passed through a function. -/
theorem map {Q' : β → W → Prop} {g : α → β} (hp : Valid h E G (fun a => Q' (g a)) p w) :
    Valid h E G Q' (p.bind fun a => .pure (g a)) w :=
  hp.bind fun _ _ hr _ => pure fun _ he => hp.post (hr.env_star he)

end Valid

end Prog
