import Sayiir.Proof.Meets

/-!
# Undisturbed executions

While nobody sends a request to an instance, an executor computes a function: its
outcome is determined by what is recorded. `Computes cb P Q m ref` says that `m`,
started where `P` holds, ends with the value of `ref` where `Q` holds, or fails if
`ref` is an error.

The conditions `P` and `Q` are of one form, `Calm L T`: no request is pending, the
snapshot in hand satisfies `L` and the stored one satisfies `T`.
-/

namespace Sayiir

open Relation (ReflTransGen)
open Exec

variable {Q : WorkflowSnapshot → World → Prop}

/-- An environment step that leaves the stored instance and its requests alone. -/
structure Idle (w w' : World) : Prop where
  env : Env w w'
  snapshot : w'.snapshot = w.snapshot
  cancelSignal : w'.cancelSignal = w.cancelSignal
  pauseSignal : w'.pauseSignal = w.pauseSignal

/-- No request is pending, `L` holds of the snapshot in hand and `T` of the stored one. -/
structure Calm (L T : WorkflowSnapshot → Prop) (s : WorkflowSnapshot) (w : World) : Prop where
  hand : L s
  stored : ∃ t, w.snapshot = some t ∧ T t
  noCancel : w.cancelSignal = none
  noPause : w.pauseSignal = none

variable {cb : Callbacks} {α β : Type} {L L' T T' : WorkflowSnapshot → Prop}
  {s : WorkflowSnapshot} {w w' : World}

namespace Calm

theorem mono (h : Calm L T s w) (hL : ∀ s, L s → L' s) (hT : ∀ s, T s → T' s) :
    Calm L' T' s w :=
  ⟨hL s h.hand, h.stored.imp fun t ht => ⟨ht.1, hT t ht.2⟩, h.noCancel, h.noPause⟩

/-- Only the stored snapshot and the requests matter. -/
theorem of_eq (h : Calm L T s w) (hs : w'.snapshot = w.snapshot)
    (hc : w'.cancelSignal = w.cancelSignal) (hp : w'.pauseSignal = w.pauseSignal) :
    Calm L T s w' :=
  ⟨h.hand, hs ▸ h.stored, hc ▸ h.noCancel, hp ▸ h.noPause⟩

theorem after (h : Calm L T s w) : After Idle w (Calm L T s) :=
  after_of_stable (fun _ _ he hw => hw.of_eq he.snapshot he.cancelSignal he.pauseSignal) h

end Calm

/-- The error ends an execution for good. -/
def Fatal (e : RuntimeError) : Prop := ∀ wakeAt, e ≠ .workflow (.waiting wakeAt)

/-- The outcome `r` is the one that `ref` gives; a success leaves `Q` behind. -/
def Ends (ref : Except RuntimeError α) (Q : WorkflowSnapshot → World → Prop)
    (r : Except RuntimeError α) (s : WorkflowSnapshot) (w : World) : Prop :=
  match ref, r with
  | .ok a, .ok b => b = a ∧ Q s w
  | .error _, .error e => Fatal e
  | _, _ => False

/-- Undisturbed and from `P`, the computation gives what `ref` says. -/
def Computes (cb : Callbacks) (P Q : WorkflowSnapshot → World → Prop) (m : Exec α)
    (ref : Except RuntimeError α) : Prop :=
  ∀ s w, P s w → Meets cb Idle (fun _ _ => True) m s w (Ends ref Q)

theorem Ends.mono {ref r : Except RuntimeError α} {Q' : WorkflowSnapshot → World → Prop}
    (hQ : ∀ s w, Q s w → Q' s w) (h : Ends ref Q r s w) : Ends ref Q' r s w := by
  cases ref <;> cases r
  · exact h
  · exact h
  · exact h
  · exact ⟨h.1, hQ _ _ h.2⟩

theorem Ends.toOption {ref r : Except RuntimeError α}
    (h : Ends ref Q r s w) : r.toOption = ref.toOption := by
  cases ref <;> cases r
  · rfl
  · exact h.elim
  · exact h.elim
  · exact congrArg some h.1

namespace Computes

variable {P P' Q Q' R : WorkflowSnapshot → World → Prop} {m : Exec α}
  {ref : Except RuntimeError α}

theorem mono (h : Computes cb P Q m ref) (hP : ∀ s w, P' s w → P s w)
    (hQ : ∀ s w, Q s w → Q' s w) : Computes cb P' Q' m ref :=
  fun s w hs => (h s w (hP s w hs)).mono fun _ _ _ hr => hr.mono hQ

theorem bind {f : α → Exec β} {g : α → Except RuntimeError β} (hm : Computes cb P Q m ref)
    (hf : ∀ a, ref = .ok a → Computes cb Q R (f a) (g a)) :
    Computes cb P R (m >>= f) (ref >>= g) := by
  intro s w hP
  refine (hm s w hP).bind_of ?_ ?_
  · intro a s' w' hr
    cases ref with
    | error e => exact hr.elim
    | ok b =>
      obtain ⟨rfl, hQ⟩ := hr
      exact hf a rfl s' w' hQ
  · intro e s' w' hr
    cases ref with
    | error e' => exact hr
    | ok b => exact hr.elim

/-- A last part that hands the value on. -/
theorem tail {f : α → Exec α} (hm : Computes cb P Q m ref)
    (hf : ∀ a, Computes cb Q R (f a) (.ok a)) : Computes cb P R (m >>= f) ref := by
  have h := hm.bind (g := Except.ok) fun a _ => hf a
  cases ref with
  | ok a => exact h
  | error e => exact h

/-- A first part that only prepares. -/
theorem seq {m : Exec Unit} {f : Unit → Exec β} {ref : Except RuntimeError β}
    (hm : Computes cb P Q m (.ok ())) (hf : Computes cb Q R (f ()) ref) :
    Computes cb P R (m >>= f) ref :=
  hm.bind (g := fun _ => ref) fun _ _ => hf

end Computes

/-! ## Computations without operations -/

section basic

variable {P Q : WorkflowSnapshot → World → Prop}

theorem computes_pure {a : α} : Computes cb (Calm L T) (Calm L T) (pure a) (.ok a) :=
  fun _ _ h => meets_pure fun w' hw => ⟨rfl, h.after w' hw⟩

theorem computes_throw {e e' : RuntimeError} (he : Fatal e) :
    Computes cb (Calm L T) Q (throw e : Exec α) (.error e') :=
  fun _ _ _ => meets_throw fun _ _ => he

theorem computes_ofExcept {r : Except RuntimeError α} (hr : ∀ e, r = .error e → Fatal e) :
    Computes cb (Calm L T) (Calm L T) (ofExcept r) r := by
  intro s w h
  refine meets_ofExcept fun w' hw => ?_
  cases r with
  | ok a => exact ⟨rfl, h.after w' hw⟩
  | error e => exact hr e rfl

theorem computes_get_bind {f : WorkflowSnapshot → Exec β} {ref : Except RuntimeError β}
    (hf : ∀ s, L s → Computes cb (Calm L T) Q (f s) ref) :
    Computes cb (Calm L T) Q (get >>= f) ref :=
  fun s w h => hf s h.hand s w h

theorem computes_modify {g : WorkflowSnapshot → WorkflowSnapshot} (hg : ∀ s, L s → L' (g s)) :
    Computes cb (Calm L T) (Calm L' T) (modify g) (.ok ()) := by
  intro s w h
  refine meets_modify fun w' hw => ⟨rfl, ?_⟩
  have hw' := h.after w' hw
  exact ⟨hg s hw'.hand, hw'.stored, hw'.noCancel, hw'.noPause⟩

theorem computes_when {c : Bool} {m : Exec Unit} (hm : Computes cb (Calm L T) (Calm L T) m (.ok ())) :
    Computes cb (Calm L T) (Calm L T) (when c m) (.ok ()) :=
  fun s w h => meets_when (fun _ => hm s w h) fun _ w' hw => ⟨rfl, h.after w' hw⟩

end basic

/-! ## Operations -/

section operations

/-- An operation that leaves the store alone and answers `a`. -/
theorem performs_silent {o : Op} {Q : o.Resp → World → Prop} (h : Calm L T s w)
    (ho : ∀ w, (Op.handle cb o w).2.snapshot = w.snapshot
      ∧ (Op.handle cb o w).2.cancelSignal = w.cancelSignal
      ∧ (Op.handle cb o w).2.pauseSignal = w.pauseSignal)
    (hQ : ∀ v w', Calm L T s w' → Q (Op.handle cb o v).1 w') :
    Performs cb Idle (fun _ _ => True) o w Q := by
  intro w' hw
  refine ⟨trivial, fun v hv => hQ w' v ?_⟩
  obtain ⟨h₁, h₂, h₃⟩ := ho w'
  exact ((h.after w' hw).of_eq h₁ h₂ h₃).after v hv

/-- What a user function answers. -/
theorem ends_mapError {r : Except BoxError Bytes} (h : Calm L T s w) :
    Ends (r.mapError .ofBoxError) (Calm L T) (r.mapError .ofBoxError) s w := by
  cases r with
  | ok a => exact ⟨rfl, h⟩
  | error e => cases e <;> exact fun _ => by simp [RuntimeError.ofBoxError]

theorem computes_executeKeyFn (id : String) (input : Bytes) :
    Computes cb (Calm L T) (Calm L T) (executeKeyFn id input)
      ((cb.execute (keyFnId id) input).mapError .ofBoxError) :=
  fun _ _ h => meets_executeKeyFn (performs_silent h (fun _ => ⟨rfl, rfl, rfl⟩)
    fun _ _ hw => ends_mapError hw)

theorem computes_sleepUntil (time : Time) :
    Computes cb (Calm L T) (Calm L T) (sleepUntil time) (.ok ()) :=
  fun _ _ h => meets_sleepUntil (performs_silent h (fun _ => ⟨rfl, rfl, rfl⟩)
    fun _ _ hw => ⟨rfl, hw⟩)

/-- Reading the clock: whatever it shows, the rest gives the same. -/
theorem computes_utcNow_bind {f : Time → Exec β}
    {ref : Except RuntimeError β} (hf : ∀ now, Computes cb (Calm L T) Q (f now) ref) :
    Computes cb (Calm L T) Q (utcNow >>= f) ref := by
  intro s w h
  have hnow : Meets cb Idle (fun _ _ => True) utcNow s w fun r s' w' =>
      (∃ now, r = .ok now) ∧ Calm L T s' w' :=
    meets_utcNow (performs_silent h (fun _ => ⟨rfl, rfl, rfl⟩) fun v _ hw => ⟨⟨v.clock, rfl⟩, hw⟩)
  refine hnow.bind_of (fun now s' w' hr => hf now s' w' hr.2) ?_
  rintro e s' w' ⟨⟨_, ⟨⟩⟩, -⟩

theorem computes_saveSnapshot : Computes cb (Calm L T) (Calm L L) saveSnapshot (.ok ()) := by
  intro s w h
  refine meets_saveSnapshot fun w' hw => ⟨trivial, fun v hv => ⟨rfl, ?_⟩⟩
  have hw' := h.after w' hw
  have hsaved : Calm L L s (w'.saveSnapshot s).2 :=
    ⟨h.hand, ⟨s, rfl, h.hand⟩, hw'.noCancel, hw'.noPause⟩
  exact hsaved.after v hv

theorem computes_saveTaskResult {taskId : TaskId} {output : Bytes}
    (hT : ∀ t, T t → T' (t.markTaskCompleted taskId output)) :
    Computes cb (Calm L T) (Calm L T') (saveTaskResult taskId output) (.ok ()) := by
  intro s w h
  refine meets_saveTaskResult fun w' hw => ⟨trivial, ?_⟩
  have hw' := h.after w' hw
  obtain ⟨t, ht, hTt⟩ := hw'.stored
  simp only [Op.handle, World.saveTaskResult, ht]
  intro v hv
  have hsaved : Calm L T' s (World.log (.savedResult taskId output)
      { w' with snapshot := some (t.markTaskCompleted taskId output) }) :=
    ⟨h.hand, ⟨_, rfl, hT t hTt⟩, hw'.noCancel, hw'.noPause⟩
  exact ⟨rfl, hsaved.after v hv⟩

/-- Without a request the guards let everything pass. -/
theorem computes_checkGuards (scope : Option TaskId) :
    Computes cb (Calm L T) (Calm L T) (checkGuards scope) (.ok ()) := by
  intro s w h
  have hcancel : Meets cb Idle (fun _ _ => True) (checkAndCancel scope) s w
      (Ends (.ok false) (Calm L T)) := by
    refine meets_checkAndCancel fun w' hw => ⟨trivial, fun v hv => ?_⟩
    have hw' := h.after w' hw
    simp only [Op.handle, World.checkAndCancel, hw'.noCancel] at hv ⊢
    exact ⟨rfl, hw'.after v hv⟩
  have hpause : ∀ s w, Calm L T s w → Meets cb Idle (fun _ _ => True) checkAndPause s w
      (Ends (.ok false) (Calm L T)) := by
    intro s w h
    refine meets_checkAndPause fun w' hw => ⟨trivial, fun v hv => ?_⟩
    have hw' := h.after w' hw
    simp only [Op.handle, World.checkAndPause, hw'.noPause] at hv ⊢
    exact ⟨rfl, hw'.after v hv⟩
  refine hcancel.bind_of (fun cancelled s' w' hr => ?_) fun _ _ _ hr => hr.elim
  obtain ⟨rfl, hcalm⟩ := hr
  refine (hpause s' w' hcalm).bind_of (fun paused s'' w'' hr => ?_) fun _ _ _ hr => hr.elim
  obtain ⟨rfl, hcalm'⟩ := hr
  exact computes_pure s'' w'' hcalm'

end operations

/-! ## Branches -/

/-- A branch works on a copy of the stored snapshot; its caller's copy stays as it is. -/
theorem computes_onLoadedSnapshot {m : Exec Bytes}
    {ref : Except RuntimeError Bytes} (hm : Computes cb (Calm T T) (Calm L' T') m ref)
    (h : Calm L T s w) (hQ : ∀ w', Calm L T' s w' → Q s w') :
    Prog.Valid (Op.handle cb) Idle (fun _ _ => True)
      (fun r w' => Ends ref (fun _ => Q s) r s w') (onLoadedSnapshot m) w := by
  refine Prog.Valid.op fun w' hw => ⟨trivial, ?_⟩
  have hw' := h.after w' hw
  obtain ⟨t, ht, hTt⟩ := hw'.stored
  simp only [Op.handle, World.loadSnapshot, ht]
  refine Prog.Valid.map (Prog.Valid.post_mono
    (hm t w' ⟨hTt, ⟨t, ht, hTt⟩, hw'.noCancel, hw'.noPause⟩) fun r v hr => ?_)
  cases ref <;> cases hr' : r.1
  · simp only [hr'] at hr
    exact hr
  · simp only [hr'] at hr
    exact hr.elim
  · simp only [hr'] at hr
    exact hr.elim
  · simp only [hr'] at hr
    obtain ⟨rfl, hcalm⟩ := hr
    exact ⟨rfl, hQ v ⟨h.hand, hcalm.stored, hcalm.noCancel, hcalm.noPause⟩⟩

theorem computes_liftExcept {m : Exec Bytes} {ref : Except RuntimeError Bytes}
    (hm : Computes cb (Calm T T) (Calm L' T') m ref) :
    Computes cb (Calm L T) (Calm L T') (liftExcept (onLoadedSnapshot m)) ref :=
  fun _ _ h => meets_liftExcept ((computes_onLoadedSnapshot (Q := Calm L T') hm h
    fun _ hw => hw).post_mono fun _ _ hr => hr)

end Sayiir
