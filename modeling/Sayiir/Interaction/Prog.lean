import Mathlib.Data.List.FinRange
import Mathlib.Logic.Function.Basic

/-!
# Interaction programs

A program is a tree of atomic operations on a shared world. `op` performs one
operation and goes on with its response; `par` runs a family of child programs
next to each other and goes on with their results, in the order in which the
children finished.

Two semantics are given to a program. `Step` is the interleaving one: at every
step some child of some `par` performs its next operation. `eval` is the
executable one: children run to the end one after the other. `eval_reach` says
that the second is one of the schedules of the first.
-/

/-- Programs over operations `Op` with responses `Resp`, whose `par` children
return an `R`. -/
inductive Prog (Op : Type) (Resp : Op → Type) (R : Type) : Type → Type 1
  /-- The finished program. -/
  | pure {α : Type} (a : α) : Prog Op Resp R α
  /-- Perform `o` atomically and continue with its response. -/
  | op {α : Type} (o : Op) (k : Resp o → Prog Op Resp R α) : Prog Op Resp R α
  /-- Run the children; a result that is `fatal` ends the wait for the others. -/
  | par {α : Type} (n : Nat) (fatal : R → Bool) (cs : Fin n → Prog Op Resp R R)
      (k : List (Fin n × R) → Prog Op Resp R α) : Prog Op Resp R α

namespace Prog

variable {n : Nat}

variable {Op : Type} {Resp : Op → Type} {R W : Type}

/-- Sequential composition. -/
def bind {α β : Type} : Prog Op Resp R α → (α → Prog Op Resp R β) → Prog Op Resp R β
  | .pure a, f => f a
  | .op o k, f => .op o fun r => (k r).bind f
  | .par n fatal cs k, f => .par n fatal cs fun rs => (k rs).bind f

/-! ## Interleaving semantics -/

/-- `rs` is what a `par` node can continue with: results of children that have
finished, each listed once, in the order they were taken. Either every child is
listed and none was fatal, or the last one listed is the first fatal one. -/
structure Joined {n : Nat} (fatal : R → Bool) (cs : Fin n → Prog Op Resp R R)
    (rs : List (Fin n × R)) : Prop where
  /-- No child is taken twice. -/
  nodup : (rs.map Prod.fst).Nodup
  /-- Only finished children are taken. -/
  finished : ∀ p ∈ rs, cs p.1 = .pure p.2
  /-- The wait ends with the last child or with the first fatal result. -/
  ended : ((∀ i, i ∈ rs.map Prod.fst) ∧ ∀ p ∈ rs, fatal p.2 = false)
    ∨ ∃ pre p, rs = pre ++ [p] ∧ fatal p.2 = true ∧ ∀ q ∈ pre, fatal q.2 = false

/-- A wait that no fatal result has ended takes every child once. -/
theorem Joined.perm {fatal : R → Bool} {cs : Fin n → Prog Op Resp R R}
    {rs : List (Fin n × R)} (hj : Joined fatal cs rs) (hf : ∀ p ∈ rs, fatal p.2 = false) :
    (rs.map Prod.fst).Perm (List.finRange n) := by
  rcases hj.ended with ⟨hall, -⟩ | ⟨pre, p, rfl, hp, -⟩
  · refine (List.perm_ext_iff_of_nodup hj.nodup (List.nodup_finRange n)).mpr fun i => ?_
    exact ⟨fun _ => List.mem_finRange i, fun _ => hall i⟩
  · rw [hf p (by simp)] at hp
    cases hp

/-- One step of a program in a world, where `h` performs the operations. -/
inductive Step (h : (o : Op) → W → Resp o × W) :
    {α : Type} → Prog Op Resp R α → W → Prog Op Resp R α → W → Prop
  | op {α : Type} {o : Op} {k : Resp o → Prog Op Resp R α} {w : W} :
      Step h (.op o k) w (k (h o w).1) (h o w).2
  | child {α : Type} {n : Nat} {fatal : R → Bool} {cs : Fin n → Prog Op Resp R R}
      {k : List (Fin n × R) → Prog Op Resp R α} {w w' : W} (i : Fin n) {c' : Prog Op Resp R R} :
      Step h (cs i) w c' w' →
      Step h (.par n fatal cs k) w (.par n fatal (Function.update cs i c') k) w'
  | join {α : Type} {n : Nat} {fatal : R → Bool} {cs : Fin n → Prog Op Resp R R}
      {k : List (Fin n × R) → Prog Op Resp R α} {w : W} {rs : List (Fin n × R)} :
      Joined fatal cs rs → Step h (.par n fatal cs k) w (k rs) w

/-- What a program and its environment `E` reach together. -/
inductive Reach (h : (o : Op) → W → Resp o × W) (E : W → W → Prop) {α : Type}
    (p : Prog Op Resp R α) (w : W) : Prog Op Resp R α → W → Prop
  | refl : Reach h E p w p w
  | step {p' p'' : Prog Op Resp R α} {w' w'' : W} :
      Reach h E p w p' w' → Step h p' w' p'' w'' → Reach h E p w p'' w''
  | env {p' : Prog Op Resp R α} {w' w'' : W} :
      Reach h E p w p' w' → E w' w'' → Reach h E p w p' w''

variable {h : (o : Op) → W → Resp o × W} {E E' : W → W → Prop} {α β : Type}

theorem not_step_pure {a : α} {w w' : W} {p' : Prog Op Resp R α} :
    ¬ Step h (.pure a : Prog Op Resp R α) w p' w' := by
  intro hs
  cases hs

theorem step_op_inv {o : Op} {k : Resp o → Prog Op Resp R α} {w w' : W}
    {p' : Prog Op Resp R α} (hs : Step h (.op o k) w p' w') :
    p' = k (h o w).1 ∧ w' = (h o w).2 := by
  cases hs
  exact ⟨rfl, rfl⟩

theorem step_par_inv {fatal : R → Bool} {cs : Fin n → Prog Op Resp R R}
    {k : List (Fin n × R) → Prog Op Resp R α} {w w' : W} {p' : Prog Op Resp R α}
    (hs : Step h (.par n fatal cs k) w p' w') :
    (∃ i c', Step h (cs i) w c' w' ∧ p' = .par n fatal (Function.update cs i c') k)
      ∨ ∃ rs, Joined fatal cs rs ∧ p' = k rs ∧ w' = w := by
  cases hs with
  | child i hc => exact Or.inl ⟨i, _, hc, rfl⟩
  | join hj => exact Or.inr ⟨_, hj, rfl, rfl⟩

theorem Reach.trans {p q r : Prog Op Resp R α} {w v u : W} (h₁ : Reach h E p w q v)
    (h₂ : Reach h E q v r u) : Reach h E p w r u := by
  induction h₂ with
  | refl => exact h₁
  | step _ hs ih => exact ih.step hs
  | env _ he ih => exact ih.env he

theorem Reach.mono (hE : ∀ w w', E w w' → E' w w') {p p' : Prog Op Resp R α} {w w' : W}
    (hr : Reach h E p w p' w') : Reach h E' p w p' w' := by
  induction hr with
  | refl => exact .refl
  | step _ hs ih => exact ih.step hs
  | env _ he ih => exact ih.env (hE _ _ he)

/-- A step of the first part of a sequence is a step of the sequence. -/
theorem step_bind {p p' : Prog Op Resp R α} {w w' : W} (f : α → Prog Op Resp R β)
    (hs : Step h p w p' w') : Step h (p.bind f) w (p'.bind f) w' := by
  cases hs with
  | op => exact .op
  | child i hc => exact .child i hc
  | join hj => exact .join hj

theorem reach_bind {p p' : Prog Op Resp R α} {w w' : W} (f : α → Prog Op Resp R β)
    (hr : Reach h E p w p' w') : Reach h E (p.bind f) w (p'.bind f) w' := by
  induction hr with
  | refl => exact .refl
  | step _ hs ih => exact ih.step (step_bind f hs)
  | env _ he ih => exact ih.env he

/-- A step of a sequence whose first part has not finished is a step of that part. -/
theorem step_bind_inv {p : Prog Op Resp R α} {f : α → Prog Op Resp R β} {w w' : W}
    {q : Prog Op Resp R β} (hs : Step h (p.bind f) w q w') :
    (∃ a, p = .pure a) ∨ ∃ p', Step h p w p' w' ∧ q = p'.bind f := by
  cases p with
  | pure a => exact Or.inl ⟨a, rfl⟩
  | op o k =>
    obtain ⟨rfl, rfl⟩ := step_op_inv hs
    exact Or.inr ⟨_, .op, rfl⟩
  | par n fatal cs k =>
    rcases step_par_inv hs with ⟨i, c', hc, rfl⟩ | ⟨rs, hj, rfl, rfl⟩
    · exact Or.inr ⟨_, .child i hc, rfl⟩
    · exact Or.inr ⟨_, .join hj, rfl⟩

/-- **A sequence is in its first part, or past it.** -/
theorem reach_bind_inv {p : Prog Op Resp R α} {f : α → Prog Op Resp R β} {w w' : W}
    {q : Prog Op Resp R β} (hr : Reach h E (p.bind f) w q w') :
    (∃ p', Reach h E p w p' w' ∧ q = p'.bind f)
      ∨ ∃ a v, Reach h E p w (.pure a) v ∧ Reach h E (f a) v q w' := by
  induction hr with
  | refl => exact Or.inl ⟨p, .refl, rfl⟩
  | step _ hs ih =>
    rcases ih with ⟨p', hp, rfl⟩ | ⟨a, v, hp, hq⟩
    · rcases step_bind_inv hs with ⟨a, rfl⟩ | ⟨p'', hs', rfl⟩
      · exact Or.inr ⟨a, _, hp, Reach.refl.step hs⟩
      · exact Or.inl ⟨p'', hp.step hs', rfl⟩
    · exact Or.inr ⟨a, v, hp, hq.step hs⟩
  | env _ he ih =>
    rcases ih with ⟨p', hp, rfl⟩ | ⟨a, v, hp, hq⟩
    · exact Or.inl ⟨p', hp.env he, rfl⟩
    · exact Or.inr ⟨a, v, hp, hq.env he⟩

/-- A child's run is a run of the `par` node that holds it. -/
theorem reach_child {fatal : R → Bool} {cs : Fin n → Prog Op Resp R R}
    {k : List (Fin n × R) → Prog Op Resp R α} (i : Fin n) {c' : Prog Op Resp R R} {w w' : W}
    (hr : Reach h E (cs i) w c' w') :
    Reach h E (.par n fatal cs k) w (.par n fatal (Function.update cs i c') k) w' := by
  induction hr with
  | refl => rw [Function.update_eq_self]; exact .refl
  | @step p' p'' v v' _ hs ih =>
    have hc : Step h (.par n fatal (Function.update cs i p') k) v
        (.par n fatal (Function.update (Function.update cs i p') i p'') k) v' :=
      .child i (by rw [Function.update_self]; exact hs)
    rw [Function.update_idem] at hc
    exact ih.step hc
  | env _ he ih => exact ih.env he

/-! ## Evaluation -/

/-- Run the listed children one after the other, up to the first fatal result. -/
def evalChildren {n : Nat} (fatal : R → Bool) (run : Fin n → W → R × W) :
    List (Fin n) → W → List (Fin n × R) × W
  | [], w => ([], w)
  | i :: is, w =>
    let r := run i w
    if fatal r.1 then ([(i, r.1)], r.2)
    else
      let rest := evalChildren fatal run is r.2
      ((i, r.1) :: rest.1, rest.2)

/-- The schedule that runs every child to its end before the next one starts. -/
def eval (h : (o : Op) → W → Resp o × W) {α : Type} : Prog Op Resp R α → W → α × W
  | .pure a, w => (a, w)
  | .op o k, w => eval h (k (h o w).1) (h o w).2
  | .par n fatal cs k, w =>
    let r := evalChildren fatal (fun i v => eval h (cs i) v) (List.finRange n) w
    eval h (k r.1) r.2

theorem eval_bind (p : Prog Op Resp R α) (f : α → Prog Op Resp R β) (w : W) :
    eval h (p.bind f) w = eval h (f (eval h p w).1) (eval h p w).2 := by
  induction p generalizing w with
  | pure a => rfl
  | op o k ih => exact ih _ _ _
  | par n fatal cs k _ ih => exact ih _ _ _

/-- What `evalChildren` has done when it stops: every listed child is finished,
the others are untouched, and the list ends as `Joined` asks. -/
theorem evalChildren_reach {fatal : R → Bool} {cs : Fin n → Prog Op Resp R R}
    {k : List (Fin n × R) → Prog Op Resp R α}
    (hrun : ∀ i w, Reach h E (cs i) w (.pure (eval h (cs i) w).1) (eval h (cs i) w).2)
    (is : List (Fin n)) (his : is.Nodup) (cs' : Fin n → Prog Op Resp R R)
    (hcs : ∀ i ∈ is, cs' i = cs i) (w : W) :
    let r := evalChildren fatal (fun i v => eval h (cs i) v) is w
    (∃ cs'', Reach h E (.par n fatal cs' k) w (.par n fatal cs'' k) r.2
        ∧ (∀ p ∈ r.1, cs'' p.1 = .pure p.2) ∧ ∀ j ∉ is, cs'' j = cs' j)
      ∧ (r.1.map Prod.fst).Sublist is
      ∧ ((r.1.map Prod.fst = is ∧ ∀ p ∈ r.1, fatal p.2 = false)
        ∨ ∃ pre p, r.1 = pre ++ [p] ∧ fatal p.2 = true ∧ ∀ q ∈ pre, fatal q.2 = false) := by
  induction is generalizing cs' w with
  | nil =>
    refine ⟨⟨cs', .refl, ?_, fun _ _ => rfl⟩, ?_, Or.inl ⟨rfl, ?_⟩⟩ <;> simp [evalChildren]
  | cons i is ih =>
    obtain ⟨hi, hnd⟩ := List.nodup_cons.mp his
    have hhead : Reach h E (.par n fatal cs' k) w
        (.par n fatal (Function.update cs' i (.pure (eval h (cs i) w).1)) k)
        (eval h (cs i) w).2 :=
      reach_child i (by rw [hcs i List.mem_cons_self]; exact hrun i w)
    by_cases hf : fatal (eval h (cs i) w).1 = true
    · -- a fatal result: the remaining children are not started
      simp only [evalChildren, hf, if_true]
      refine ⟨⟨_, hhead, ?_, ?_⟩, ?_, Or.inr ⟨[], _, rfl, hf, by simp⟩⟩
      · intro p hp
        rw [List.mem_singleton] at hp
        subst hp
        exact Function.update_self ..
      · intro j hj
        exact Function.update_of_ne (List.ne_of_not_mem_cons hj) ..
      · simp
    · simp only [evalChildren, hf]
      have hcs' : ∀ j ∈ is, Function.update cs' i (.pure (eval h (cs i) w).1) j = cs j := by
        intro j hj
        rw [Function.update_of_ne (ne_of_mem_of_not_mem hj hi)]
        exact hcs j (List.mem_cons_of_mem _ hj)
      obtain ⟨⟨cs'', hr, hfin, hun⟩, hsub, hend⟩ := ih hnd _ hcs' (eval h (cs i) w).2
      refine ⟨⟨cs'', hhead.trans hr, ?_, ?_⟩, hsub.cons_cons i, ?_⟩
      · intro p hp
        rcases List.mem_cons.mp hp with rfl | hp
        · rw [hun i hi]
          exact Function.update_self ..
        · exact hfin p hp
      · intro j hj
        rw [hun j (fun hj' => hj (List.mem_cons_of_mem _ hj'))]
        exact Function.update_of_ne (List.ne_of_not_mem_cons hj) ..
      · have hf' : fatal (eval h (cs i) w).1 = false := by simpa using hf
        rcases hend with ⟨hall, hnf⟩ | ⟨pre, p, hpre, hp, hq⟩
        · exact Or.inl ⟨by simpa using hall, by simpa [hf'] using hnf⟩
        · refine Or.inr ⟨(i, (eval h (cs i) w).1) :: pre, p, by simp [hpre], hp, ?_⟩
          simpa [hf'] using hq

/-- **Children may run one after the other in any order.** -/
theorem reach_par_order {fatal : R → Bool} {cs : Fin n → Prog Op Resp R R}
    {k : List (Fin n × R) → Prog Op Resp R α}
    (hrun : ∀ i w, Reach h E (cs i) w (.pure (eval h (cs i) w).1) (eval h (cs i) w).2)
    {order : List (Fin n)} (hnd : order.Nodup) (hall : ∀ i, i ∈ order) (w : W) :
    let r := evalChildren fatal (fun i v => eval h (cs i) v) order w
    Reach h E (.par n fatal cs k) w (k r.1) r.2 := by
  obtain ⟨⟨cs', hr, hfin, -⟩, hsub, hend⟩ :=
    evalChildren_reach (E := E) (k := k) hrun order hnd cs (fun _ _ => rfl) w
  have hj : Joined fatal cs' _ := ⟨hsub.nodup hnd, hfin,
    hend.imp_left fun ⟨heq, hnf⟩ => ⟨fun i => by rw [heq]; exact hall i, hnf⟩⟩
  exact hr.step (.join hj)

/-- **The evaluator follows one of the schedules of the small-step semantics.** -/
theorem eval_reach (p : Prog Op Resp R α) (w : W) :
    Reach h E p w (.pure (eval h p w).1) (eval h p w).2 := by
  induction p generalizing w with
  | pure a => exact .refl
  | op o k ih => exact (Reach.refl.step Step.op).trans (ih _ _)
  | par n fatal cs k hcs ih =>
    exact (reach_par_order (fun i w => hcs i w) (List.nodup_finRange n) List.mem_finRange w).trans
      (ih _ _)

/-! ## The worlds of a run -/

/-- Perform operations and write down every world they lead to. -/
def logged (h : (o : Op) → W → Resp o × W) (o : Op) (v : W × List W) : Resp o × (W × List W) :=
  ((h o v.1).1, ((h o v.1).2, v.2 ++ [(h o v.1).2]))

/-- The worlds after each operation of the evaluated run, in order. -/
def worlds (h : (o : Op) → W → Resp o × W) (p : Prog Op Resp R α) (w : W) : List W :=
  (eval (logged h) p (w, [])).2.2

theorem step_logged {p p' : Prog Op Resp R α} {v v' : W × List W}
    (hs : Step (logged h) p v p' v') :
    Step h p v.1 p' v'.1 ∧ (v'.2 = v.2 ∨ v'.2 = v.2 ++ [v'.1]) := by
  induction hs with
  | op => exact ⟨.op, Or.inr rfl⟩
  | child i _ ih => exact ⟨.child i ih.1, ih.2⟩
  | join hj => exact ⟨.join hj, Or.inl rfl⟩

/-- **Handlers that answer alike make a program go alike.** -/
theorem step_alike {V : Type} {h' : (o : Op) → V → Resp o × V} {R' : W → V → Prop}
    (hR : ∀ o w v, R' w v → (h' o v).1 = (h o w).1 ∧ R' (h o w).2 (h' o v).2)
    {p p' : Prog Op Resp R α} {w w' : W} {v : V} (hs : Step h p w p' w') (hv : R' w v) :
    ∃ v', Step h' p v p' v' ∧ R' w' v' := by
  induction hs with
  | @op _ o k w =>
    obtain ⟨hr, hw⟩ := hR o w v hv
    refine ⟨(h' o v).2, ?_, hw⟩
    rw [← hr]
    exact .op
  | child i _ ih =>
    obtain ⟨v', hs', hw⟩ := ih hv
    exact ⟨v', .child i hs', hw⟩
  | join hj => exact ⟨v, .join hj, hv⟩

/-- **A run may be stopped in any of its worlds.** -/
theorem mem_worlds_reach {p : Prog Op Resp R α} {w v : W} (hv : v ∈ worlds h p w) :
    ∃ q, Reach h E p w q v := by
  have hlog : ∀ q u, Reach (logged h) (fun _ _ => False) p (w, []) q u →
      Reach h E p w q u.1 ∧ ∀ v ∈ u.2, ∃ q, Reach h E p w q v := by
    intro q u hr
    induction hr with
    | refl => exact ⟨.refl, by simp⟩
    | step _ hs ih =>
      obtain ⟨hstep, hlist⟩ := step_logged hs
      refine ⟨ih.1.step hstep, fun v hv => ?_⟩
      rcases hlist with hl | hl
      · exact ih.2 v (hl ▸ hv)
      · rw [hl, List.mem_append, List.mem_singleton] at hv
        rcases hv with hv | rfl
        · exact ih.2 v hv
        · exact ⟨_, ih.1.step hstep⟩
    | env _ he => exact he.elim
  exact (hlog _ _ (eval_reach p (w, []))).2 v hv

end Prog
