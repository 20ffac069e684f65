import Sayiir.Runtime.Lifecycle

/-!
# Reasoning about executors

`Meets cb E G m s w Q` is the rely-guarantee judgement for a computation `m` of
the executors, started with the snapshot `s` in hand in the world `w`: among
environment steps `E`, each of its operations is allowed by `G`, and when it has
ended, its outcome, the snapshot in hand and the world satisfy `Q`.

There is one rule for each way of composing computations and one for each
operation. Between two operations the environment may move; `After E w P` says
that `P` holds in `w` and after any number of such moves.
-/

namespace Sayiir

open Relation (ReflTransGen)
open Exec

variable {cb : Callbacks} {E E' G G' : World → World → Prop} {α β : Type}
  {m : Exec α} {s : WorkflowSnapshot} {w w' : World}
  {Q Q' : Except RuntimeError α → WorkflowSnapshot → World → Prop}

/-- `P` holds in `w` and whatever the environment does. -/
def After (E : World → World → Prop) (w : World) (P : World → Prop) : Prop :=
  ∀ w', ReflTransGen E w w' → P w'

theorem After.here {P : World → Prop} (h : After E w P) : P w := h w .refl

theorem after_of_stable {P : World → Prop} (hE : ∀ w w', E w w' → P w → P w') (h : P w) :
    After E w P := by
  intro w' hw
  induction hw with
  | refl => exact h
  | tail _ he ih => exact hE _ _ he ih

/-- The judgement about a computation of the executors. -/
def Meets (cb : Callbacks) (E G : World → World → Prop) (m : Exec α) (s : WorkflowSnapshot)
    (w : World) (Q : Except RuntimeError α → WorkflowSnapshot → World → Prop) : Prop :=
  Prog.Valid (Op.handle cb) E G (fun r w' => Q r.1 r.2 w') (m s) w

namespace Meets

theorem mono (h : Meets cb E G m s w Q) (hQ : ∀ r s w, Q r s w → Q' r s w) :
    Meets cb E G m s w Q' :=
  h.post_mono fun r w' => hQ r.1 r.2 w'

/-- What a computation must leave behind for `f` to go on from. -/
def Next (cb : Callbacks) (E G : World → World → Prop) (f : α → Exec β)
    (Q : Except RuntimeError β → WorkflowSnapshot → World → Prop) :
    Except RuntimeError α → WorkflowSnapshot → World → Prop
  | .ok a, s, w => Meets cb E G (f a) s w Q
  | .error e, s, w => Q (.error e) s w

theorem bind {f : α → Exec β} {Q : Except RuntimeError β → WorkflowSnapshot → World → Prop}
    (h : Meets cb E G m s w (Next cb E G f Q)) : Meets cb E G (m >>= f) s w Q := by
  refine Prog.Valid.bind h ?_
  rintro ⟨r, s'⟩ v hreach hpost
  cases r with
  | ok a => exact hpost
  | error e =>
    -- an error is passed on as it is, also after later environment steps
    exact Prog.Valid.pure fun v' hv => Prog.Valid.post h (hreach.env_star hv)

/-- Sequencing through a specification of the first part. -/
theorem bind_of {f : α → Exec β} {Q' : Except RuntimeError β → WorkflowSnapshot → World → Prop}
    (h : Meets cb E G m s w Q)
    (hok : ∀ a s' w', Q (.ok a) s' w' → Meets cb E G (f a) s' w' Q')
    (herr : ∀ e s' w', Q (.error e) s' w' → Q' (.error e) s' w') :
    Meets cb E G (m >>= f) s w Q' := by
  refine bind (h.mono fun r s' w' hq => ?_)
  cases r with
  | ok a => exact hok a s' w' hq
  | error e => exact herr e s' w' hq

end Meets

/-! ## Computations without operations -/

theorem meets_pure {a : α} (h : After E w fun w' => Q (.ok a) s w') :
    Meets cb E G (pure a) s w Q :=
  Prog.Valid.pure h

theorem meets_throw {e : RuntimeError} (h : After E w fun w' => Q (.error e) s w') :
    Meets cb E G (throw e) s w Q :=
  Prog.Valid.pure h

theorem meets_ofExcept {r : Except RuntimeError α} (h : After E w fun w' => Q r s w') :
    Meets cb E G (ofExcept r) s w Q :=
  Prog.Valid.pure h

theorem meets_modify {g : WorkflowSnapshot → WorkflowSnapshot}
    {Q : Except RuntimeError Unit → WorkflowSnapshot → World → Prop}
    (h : After E w fun w' => Q (.ok ()) (g s) w') : Meets cb E G (modify g) s w Q :=
  Prog.Valid.pure h

section reduction

variable {f : α → Exec β} {Q : Except RuntimeError β → WorkflowSnapshot → World → Prop}

@[simp] theorem meets_pure_bind {a : α} :
    Meets cb E G ((pure a : Exec α) >>= f) s w Q ↔ Meets cb E G (f a) s w Q := Iff.rfl

@[simp] theorem meets_get_bind {f : WorkflowSnapshot → Exec β} :
    Meets cb E G (get >>= f) s w Q ↔ Meets cb E G (f s) s w Q := Iff.rfl

@[simp] theorem meets_ofExcept_error_bind {e : RuntimeError} :
    Meets cb E G ((ofExcept (.error e) : Exec α) >>= f) s w Q
      ↔ Meets cb E G (throw e) s w Q := Iff.rfl

end reduction

theorem meets_attempt {Q : Except RuntimeError (Except RuntimeError α) → WorkflowSnapshot →
    World → Prop} (h : Meets cb E G m s w fun r s' w' => Q (.ok r) s' w') :
    Meets cb E G (attempt m) s w Q :=
  Prog.Valid.map h

theorem meets_lift {p : Proc α}
    (h : Prog.Valid (Op.handle cb) E G (fun a w' => Q (.ok a) s w') p w) :
    Meets cb E G (lift p) s w Q :=
  Prog.Valid.map h

theorem meets_liftExcept {p : Proc (Except RuntimeError α)}
    (h : Prog.Valid (Op.handle cb) E G (fun r w' => Q r s w') p w) :
    Meets cb E G (liftExcept p) s w Q :=
  Prog.Valid.map h

theorem meets_when {c : Bool} {m : Exec Unit}
    {Q : Except RuntimeError Unit → WorkflowSnapshot → World → Prop}
    (ht : c = true → Meets cb E G m s w Q)
    (hf : c = false → After E w fun w' => Q (.ok ()) s w') : Meets cb E G (when c m) s w Q := by
  cases c with
  | true => exact ht rfl
  | false => exact Prog.Valid.pure (hf rfl)

/-! ## Operations -/

/-- The operation `o` may be performed in `w`, and leads to an answer and a world
in which `Q` holds for good. -/
def Performs (cb : Callbacks) (E G : World → World → Prop) (o : Op) (w : World)
    (Q : o.Resp → World → Prop) : Prop :=
  After E w fun w' => G w' (Op.handle cb o w').2 ∧
    After E (Op.handle cb o w').2 (Q (Op.handle cb o w').1)

theorem valid_perform {o : Op} {Q : o.Resp → World → Prop} (h : Performs cb E G o w Q) :
    Prog.Valid (Op.handle cb) E G Q (.op o .pure : Proc o.Resp) w :=
  Prog.Valid.op fun w' hw => ⟨(h w' hw).1, Prog.Valid.pure (h w' hw).2⟩

section operations

theorem meets_storeSnapshot {u : WorkflowSnapshot}
    {Q : Except RuntimeError Unit → WorkflowSnapshot → World → Prop}
    (h : Performs cb E G (.saveSnapshot u) w fun _ w' => Q (.ok ()) s w') :
    Meets cb E G (storeSnapshot u) s w Q :=
  Prog.Valid.map (valid_perform (o := .saveSnapshot u) h)

theorem meets_saveSnapshot {Q : Except RuntimeError Unit → WorkflowSnapshot → World → Prop}
    (h : Performs cb E G (.saveSnapshot s) w fun _ w' => Q (.ok ()) s w') :
    Meets cb E G saveSnapshot s w Q :=
  meets_storeSnapshot h

theorem meets_saveTaskResult {taskId : TaskId} {output : Bytes}
    {Q : Except RuntimeError Unit → WorkflowSnapshot → World → Prop}
    (h : Performs cb E G (.saveTaskResult taskId output) w
      fun r w' => Q (r.mapError .backend) s w') :
    Meets cb E G (saveTaskResult taskId output) s w Q :=
  Prog.Valid.map (valid_perform h)

theorem meets_checkAndCancel {scope : Option TaskId}
    {Q : Except RuntimeError Bool → WorkflowSnapshot → World → Prop}
    (h : Performs cb E G (.checkAndCancel scope) w fun r w' => Q (r.mapError .backend) s w') :
    Meets cb E G (checkAndCancel scope) s w Q :=
  Prog.Valid.map (valid_perform h)

theorem meets_checkAndPause {Q : Except RuntimeError Bool → WorkflowSnapshot → World → Prop}
    (h : Performs cb E G .checkAndPause w fun r w' => Q (r.mapError .backend) s w') :
    Meets cb E G checkAndPause s w Q :=
  Prog.Valid.map (valid_perform h)

theorem meets_executeTask {id : String} {input : Bytes}
    {Q : Except RuntimeError Bytes → WorkflowSnapshot → World → Prop}
    (h : Performs cb E G (.executeTask id input) w fun r w' => Q (r.mapError .ofBoxError) s w') :
    Meets cb E G (executeTask id input) s w Q :=
  Prog.Valid.map (valid_perform h)

theorem meets_executeKeyFn {branchId : String} {input : Bytes}
    {Q : Except RuntimeError Bytes → WorkflowSnapshot → World → Prop}
    (h : Performs cb E G (.executeKeyFn branchId input) w
      fun r w' => Q (r.mapError .ofBoxError) s w') :
    Meets cb E G (executeKeyFn branchId input) s w Q :=
  Prog.Valid.map (valid_perform h)

theorem meets_utcNow {Q : Except RuntimeError Time → WorkflowSnapshot → World → Prop}
    (h : Performs cb E G .utcNow w fun r w' => Q (.ok r) s w') : Meets cb E G utcNow s w Q :=
  Prog.Valid.map (valid_perform h)

theorem meets_sleepUntil {time : Time}
    {Q : Except RuntimeError Unit → WorkflowSnapshot → World → Prop}
    (h : Performs cb E G (.sleepUntil time) w fun _ w' => Q (.ok ()) s w') :
    Meets cb E G (sleepUntil time) s w Q :=
  Prog.Valid.map (valid_perform h)

end operations

end Sayiir
