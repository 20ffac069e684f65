import Sayiir.Interaction.Protocol
import Sayiir.Runtime.Lifecycle

/-!
# The executors, a protocol and a budget

Whoever shares the store with an in-process executor knows only the operations it
performs. What can be said about them without looking at the world is that they keep to
a protocol, and what they cost. `Costs` is the judgement for a computation with a
snapshot in hand: a `Standing` relates the state of the protocol, the budget and that
snapshot, before and after it.

A `Conduct` lists what a protocol has to allow the main path, a `Resuming` what comes
before and after it, so that `resume_spends` and `run_spends` hold: a resumed or new
execution of the whole tree keeps to the protocol and to its budget. Only calls of some
tasks cost something; each such node of the tree has the same allowance, and the hooks
`task` and `innerTask` say that its retry loop stays within it. The branches of forks and
of routing nodes work on their own copies of the stored snapshot, next to each other, and
so must leave the state of the protocol alone.
-/

namespace Sayiir

open Exec WorkflowContinuation

variable {output : Bytes} {codec : EnvelopeCodec} {o : ForkBranchOutcome} {ex : Executor}
  {runs : List BranchRun} {branches : List WorkflowContinuation}
  {join next : Option WorkflowContinuation} {id name : String} {s : WorkflowSnapshot} {a k : ℕ}

variable {γ α β : Type} {π : Protocol Op Op.Resp γ} {cost : (o : Op) → o.Resp → ℕ}
  {hand : γ → WorkflowSnapshot → Prop}

/-! ## The judgement -/

/-- What holds between the state of the protocol, the budget and the snapshot in hand. -/
abbrev Standing (γ : Type) := γ → ℕ → WorkflowSnapshot → Prop

/-- How a computation may end. -/
def EndsIn (Q : α → Standing γ) (E : Standing γ) (g : γ) (k : ℕ) :
    Except RuntimeError α × WorkflowSnapshot → Prop
  | (.ok a, s) => Q a g k s
  | (.error _, s) => E g k s

/-- Started in `P`, the computation keeps to the protocol and to its budget, and ends with
`Q` or with `E`. -/
def Costs (π : Protocol Op Op.Resp γ) (cost : (o : Op) → o.Resp → ℕ) (P : Standing γ)
    (m : Exec α) (Q : α → Standing γ) (E : Standing γ) : Prop :=
  ∀ g k s, P g k s → (m s).Spends cost π g k (EndsIn Q E)

/-- The computation costs nothing and keeps `P`. -/
abbrev Keeps (π : Protocol Op Op.Resp γ) (cost : (o : Op) → o.Resp → ℕ) (P : Standing γ)
    (m : Exec α) (E : Standing γ) : Prop :=
  Costs π cost P m (fun _ => P) E

/-- Nothing is known of a failure. -/
abbrev AnyEnd : Standing γ := fun _ _ _ => True

/-- At least `k` is left. -/
def Has (hand : γ → WorkflowSnapshot → Prop) (k : ℕ) : Standing γ := fun g k' s => k ≤ k' ∧ hand g s

/-- The computation costs at most `a`. -/
abbrev Uses (π : Protocol Op Op.Resp γ) (cost : (o : Op) → o.Resp → ℕ)
    (hand : γ → WorkflowSnapshot → Prop) (a : ℕ) (m : Exec α) : Prop :=
  ∀ k, Costs π cost (Has hand (k + a)) m (fun _ => Has hand k) AnyEnd

section rules

variable {P E : Standing γ} {m : Exec α} {Q : α → Standing γ}

theorem Costs.bind {f : α → Exec β} {Q' : β → Standing γ} (hm : Costs π cost P m Q E)
    (hf : ∀ a, Costs π cost (Q a) (f a) Q' E) : Costs π cost P (m >>= f) Q' E := by
  intro g k s hs
  refine Prog.Spends.bind ((hm g k s hs).mono fun g' k' r hr => ?_)
  obtain ⟨r, s'⟩ := r
  cases r with
  | ok a => exact hf a g' k' s' hr
  | error e => exact hr

theorem Costs.mono {P' E' : Standing γ} {Q' : α → Standing γ} (hm : Costs π cost P m Q E)
    (hP : ∀ g k s, P' g k s → P g k s) (hQ : ∀ a g k s, Q a g k s → Q' a g k s)
    (hE : ∀ g k s, E g k s → E' g k s) : Costs π cost P' m Q' E' := by
  intro g k s hs
  refine (hm g k s (hP g k s hs)).mono fun g' k' r hr => ?_
  obtain ⟨r, s'⟩ := r
  cases r with
  | ok a => exact hQ a g' k' s' hr
  | error e => exact hE g' k' s' hr

theorem Costs.pre {P' : Standing γ} (hm : Costs π cost P m Q E)
    (hP : ∀ g k s, P' g k s → P g k s) : Costs π cost P' m Q E :=
  fun g k s hs => hm g k s (hP g k s hs)

/-- A larger budget does as well. -/
theorem Costs.drop {k' : ℕ} (h : Costs π cost (Has hand k) m Q E) (hle : k ≤ k') :
    Costs π cost (Has hand k') m Q E :=
  h.pre fun _ _ _ hs => ⟨hle.trans hs.1, hs.2⟩

/-- What is added to the budget is left in the end. -/
theorem Costs.uses (h : Costs π cost (fun g k s => k = a ∧ hand g s) m
      (fun _ g _ s => hand g s) AnyEnd) : Uses π cost hand a m := by
  rintro k g k' s ⟨hle, hs⟩
  obtain ⟨j, rfl⟩ := Nat.exists_eq_add_of_le hle
  have hsum : k + a + j = a + (k + j) := by omega
  rw [hsum]
  refine ((h g a s ⟨rfl, hs⟩).more (k + j)).mono fun g' k' r hr => ?_
  obtain ⟨i, rfl, hr⟩ := hr
  obtain ⟨r, s'⟩ := r
  cases r with
  | ok a => exact ⟨by omega, hr⟩
  | error e => exact trivial

theorem Uses.mono {a' : ℕ} (h : Uses π cost hand a m) (hle : a ≤ a') : Uses π cost hand a' m :=
  fun k => (h k).drop (Nat.add_le_add_left hle k)

theorem Uses.bind {c : ℕ} {f : α → Exec β} (hm : Uses π cost hand a m)
    (hf : ∀ x, Uses π cost hand c (f x)) : Uses π cost hand (a + c) (m >>= f) := by
  intro k
  have hsum : k + (a + c) = k + c + a := by omega
  rw [hsum]
  exact (hm (k + c)).bind fun x => hf x k

/-- What comes first is free. -/
theorem Uses.after {f : α → Exec β} (hm : Uses π cost hand 0 m)
    (hf : ∀ x, Uses π cost hand a (f x)) : Uses π cost hand a (m >>= f) :=
  fun k => Costs.bind (hm (k + a)) fun x => hf x k

/-- What comes last is free. -/
theorem Uses.free {f : α → Exec β} (hm : Uses π cost hand a m)
    (hf : ∀ x, Uses π cost hand 0 (f x)) : Uses π cost hand a (m >>= f) :=
  fun k => (hm k).bind fun x => hf x k

theorem uses_pure (x : α) : Uses π cost hand a (pure x) :=
  Uses.mono (a := 0) (fun _ _ _ _ hs => hs) (Nat.zero_le a)

theorem costs_pure {a : α} (h : ∀ g k s, P g k s → Q a g k s) : Costs π cost P (pure a) Q E :=
  fun g k s hs => h g k s hs

theorem costs_throw {e : RuntimeError} (h : ∀ g k s, P g k s → E g k s) :
    Costs π cost P (throw e : Exec α) Q E :=
  fun g k s hs => h g k s hs

theorem costs_get_bind {f : WorkflowSnapshot → Exec α}
    (hf : ∀ s, Costs π cost (fun g k s' => s' = s ∧ P g k s) (f s) Q E) :
    Costs π cost P (get >>= f) Q E :=
  fun g k s hs => hf s g k s ⟨rfl, hs⟩

/-- The outcome of a computation as a value. -/
theorem Costs.attempt {F : Standing γ} (hm : Costs π cost P m Q F) :
    Costs π cost P (attempt m) (fun r g k s => match r with
      | .ok a => Q a g k s
      | .error _ => F g k s) E := by
  intro g k s hs
  refine Prog.Spends.bind ((hm g k s hs).mono fun g' k' r hr => ?_)
  obtain ⟨r, s'⟩ := r
  cases r <;> exact hr

/-- A computation that performs one operation for nothing. -/
theorem costs_perform {o : Op} {f : o.Resp → Except RuntimeError α} (hcost : ∀ r, cost o r = 0)
    (h : ∀ g k s, P g k s →
      π.allows g o ∧ ∀ r g', π.next g o r g' → EndsIn Q E g' k (f r, s)) :
    Costs π cost P (fun s => .op o fun r => .pure (f r, s)) Q E :=
  fun g k s hs => Prog.Spends.op hcost (h g k s hs).1 (h g k s hs).2

theorem keeps_pure (a : α) : Keeps π cost P (pure a) E := fun _ _ _ hs => hs

theorem keeps_get_bind {f : WorkflowSnapshot → Exec α} (hf : ∀ s, Costs π cost P (f s) Q E) :
    Costs π cost P (get >>= f) Q E :=
  fun g k s hs => hf s g k s hs

theorem keeps_modify {f : WorkflowSnapshot → WorkflowSnapshot}
    (hf : ∀ g k s, P g k s → P g k (f s)) : Keeps π cost P (modify f) E :=
  fun g k s hs => hf g k s hs

theorem keeps_when {c : Bool} {m : Exec Unit} (hm : c → Keeps π cost P m E) :
    Keeps π cost P (when c m) E := by
  cases c with
  | true => exact hm rfl
  | false => exact keeps_pure ()

theorem Keeps.attempt (hm : Keeps π cost P m P) : Keeps π cost P (attempt m) E :=
  (Costs.attempt hm).mono (fun _ _ _ h => h) (fun r _ _ _ h => by cases r <;> exact h)
    fun _ _ _ h => h

end rules

/-! ## Computations that leave the state of the protocol alone -/

/-- Operations that neither read nor write the stored snapshot as a whole. -/
def Op.isQuiet : Op → Bool
  | .saveSnapshot _ | .loadSnapshot | .checkAndCancel _ | .checkAndPause => false
  | _ => true

variable [Sha256] {priced : TaskId → Bool}

/-- Operations other than the calls of tasks that cost something. -/
def Op.isFree (priced : TaskId → Bool) : Op → Bool
  | .executeTask id _ | .raceTask id _ _ => !priced (TaskId.sha256 id)
  | _ => true

/-- Calls of other tasks are free, and so is everything else. -/
def Fair (priced : TaskId → Bool) (cost : (o : Op) → o.Resp → ℕ) : Prop :=
  ∀ {o : Op}, o.isFree priced → ∀ r, cost o r = 0

/-- Quiet operations are allowed, and leave the state of the protocol alone. -/
structure Poised (π : Protocol Op Op.Resp γ) (cost : (o : Op) → o.Resp → ℕ)
    (priced : TaskId → Bool) (P E : Standing γ) : Prop where
  fair : Fair priced cost
  err : ∀ {g k s}, P g k s → E g k s
  quiet : ∀ {g k s o}, P g k s → o.isQuiet → π.allows g o ∧ ∀ r g', π.next g o r g' → g' = g

/-- Moreover, the deadline does not matter. -/
structure Timed (π : Protocol Op Op.Resp γ) (cost : (o : Op) → o.Resp → ℕ)
    (priced : TaskId → Bool) (P E : Standing γ) : Prop extends Poised π cost priced P E where
  deadline : ∀ {g k s} d, P g k s → P g k { s with taskDeadline := d }

/-- The snapshot may be saved, and is in hand afterwards. -/
def Savable (π : Protocol Op Op.Resp γ) (P : Standing γ) : Prop :=
  ∀ {g k s}, P g k s →
    π.allows g (.saveSnapshot s) ∧ ∀ r g', π.next g (.saveSnapshot s) r g' → P g' k s

/-- What an executor may do between two nodes, with the snapshot in hand. -/
structure Bearing (π : Protocol Op Op.Resp γ) (priced : TaskId → Bool)
    (hand : γ → WorkflowSnapshot → Prop) : Prop where
  quiet : ∀ {g s o}, hand g s → o.isQuiet → π.allows g o ∧ ∀ r g', π.next g o r g' → g' = g
  deadline : ∀ {g s} d, hand g s → hand g { s with taskDeadline := d }
  mark : ∀ {g s} taskId output, hand g s → hand g (s.markTaskCompleted taskId output)
  record : ∀ {g s taskId} policy e now, priced taskId = false → hand g s →
    hand g (s.recordRetry taskId policy e none now).2
  clear : ∀ {g s taskId}, priced taskId = false → hand g s → hand g (s.clearRetryState taskId)
  save : ∀ {g s}, hand g s →
    π.allows g (.saveSnapshot s) ∧ ∀ r g', π.next g (.saveSnapshot s) r g' → hand g' s

theorem Bearing.timed (hb : Bearing π priced hand) (hf : Fair priced cost) (k : ℕ) {E : Standing γ}
    (hE : ∀ {g k' s}, Has hand k g k' s → E g k' s) : Timed π cost priced (Has hand k) E where
  fair := hf
  err := hE
  quiet hs ho := hb.quiet hs.2 ho
  deadline d hs := ⟨hs.1, hb.deadline d hs.2⟩

omit [Sha256] in
theorem Bearing.savable (hb : Bearing π priced hand) : Savable π (Has hand k) :=
  fun hs => ⟨(hb.save hs.2).1, fun r g' hr => ⟨hs.1, (hb.save hs.2).2 r g' hr⟩⟩

section operations

variable {P E : Standing γ} (hp : Poised π cost priced P E)
include hp

theorem keeps_throw {e : RuntimeError} {Q : α → Standing γ} :
    Costs π cost P (throw e : Exec α) Q E :=
  costs_throw fun _ _ _ hs => hp.err hs

theorem keeps_ofExcept (r : Except RuntimeError α) : Keeps π cost P (ofExcept r) E := by
  cases r with
  | ok a => exact keeps_pure a
  | error e => exact keeps_throw hp

/-- A computation that performs one quiet operation and leaves the snapshot as it is. -/
theorem keeps_perform {o : Op} (ho : o.isQuiet) (hfree : o.isFree priced)
    (f : o.Resp → Except RuntimeError α) :
    Keeps π cost P (fun s => .op o fun r => .pure (f r, s)) E := by
  refine costs_perform (hp.fair hfree) fun g k s hs => ?_
  obtain ⟨hallows, hnext⟩ := hp.quiet hs ho
  refine ⟨hallows, fun r g' hr => ?_⟩
  obtain rfl := hnext r g' hr
  cases f r with
  | ok a => exact hs
  | error e => exact hp.err hs

theorem keeps_saveTaskResult (taskId : TaskId) (output : Bytes) :
    Keeps π cost P (saveTaskResult taskId output) E :=
  keeps_perform hp (o := .saveTaskResult taskId output) rfl rfl _

theorem keeps_utcNow : Keeps π cost P utcNow E := keeps_perform hp (o := .utcNow) rfl rfl .ok

theorem keeps_sleepUntil (time : Time) : Keeps π cost P (sleepUntil time) E :=
  keeps_perform hp (o := .sleepUntil time) rfl rfl .ok

theorem keeps_reached (id : String) : Keeps π cost P (reached id) E :=
  keeps_perform hp (o := .reached id) rfl rfl .ok

theorem keeps_executeTask (hid : priced (TaskId.sha256 id) = false) (input : Bytes) :
    Keeps π cost P (executeTask id input) E :=
  keeps_perform hp (o := .executeTask id input) rfl (by simp [Op.isFree, hid]) _

theorem keeps_computeWakeAt (duration : Duration) : Keeps π cost P (computeWakeAt duration) E := by
  refine (keeps_utcNow hp).bind fun now => ?_
  split
  · exact keeps_pure _
  · exact keeps_throw hp

theorem keeps_computeSignalTimeout (timeout : Option Duration) :
    Keeps π cost P (computeSignalTimeout timeout) E := by
  unfold computeSignalTimeout
  split
  · exact keeps_pure _
  · split
    · exact (keeps_utcNow hp).bind fun now => keeps_pure _
    · exact keeps_pure _

theorem keeps_expiredTaskDeadline : Keeps π cost P expiredTaskDeadline E := by
  refine keeps_get_bind fun s => ?_
  split
  · exact keeps_pure _
  · exact (keeps_utcNow hp).bind fun now => keeps_pure _

theorem keeps_requireFunc (ex : Executor) (name : String) (func : Bool) :
    Keeps π cost P (ex.requireFunc name func) E := by
  unfold Executor.requireFunc
  split
  · exact keeps_pure _
  · split
    · exact keeps_pure _
    · exact keeps_throw hp

theorem keeps_saveSnapshot (hsave : Savable π P) : Keeps π cost P saveSnapshot E := by
  intro g k s hs
  obtain ⟨hallows, hnext⟩ := hsave hs
  refine Prog.Spends.op (hp.fair rfl) hallows fun r g' hr => ?_
  cases r with
  | ok _ => exact hnext _ g' hr
  | error e => exact hp.err (hnext _ g' hr)

omit hp in
/-- A node that is recorded is passed over. -/
theorem keeps_skipIfRecorded {Q : Standing γ} {compute : Exec Bytes}
    (hskip : ∀ g k s, P g k s → Q g k s) (h : Costs π cost P compute (fun _ => Q) E) :
    Costs π cost P (skipIfRecorded id compute) (fun _ => Q) E := by
  refine keeps_get_bind fun s => ?_
  split
  · exact costs_pure hskip
  · exact h

end operations

/-! ## Tasks -/

section timed

variable {P E : Standing γ} (ht : Timed π cost priced P E)
include ht

theorem keeps_clearTaskDeadline : Keeps π cost P (modify (·.clearTaskDeadline)) E :=
  keeps_modify fun _ _ _ hs => ht.deadline none hs

theorem keeps_refreshTaskDeadline : Keeps π cost P refreshTaskDeadline E := by
  refine keeps_get_bind fun s => ?_
  split
  · exact keeps_pure _
  · exact (keeps_utcNow ht.toPoised).bind fun now =>
      keeps_modify fun _ _ _ hs => ht.deadline _ hs

theorem keeps_setTaskDeadline (id : String) (timeout : Option Duration) :
    Keeps π cost P (setTaskDeadline id timeout) E := by
  unfold setTaskDeadline
  split
  · exact keeps_pure _
  · exact (keeps_utcNow ht.toPoised).bind fun now =>
      keeps_modify fun _ _ _ hs => ht.deadline _ hs

theorem keeps_setDeadlineIfNeeded (hsave : Savable π P) (id : String) (timeout : Option Duration) :
    Keeps π cost P (setDeadlineIfNeeded id timeout) E := by
  refine keeps_get_bind fun s => ?_
  split
  · exact (keeps_setTaskDeadline ht id _).bind fun _ => keeps_saveSnapshot ht.toPoised hsave
  · exact keeps_pure _

/-- The end of `prepareRetry`, when the failure has been counted. -/
theorem keeps_awaitRetry (id : String) (timeout : Option Duration) (save : Bool)
    (hsave : save → Savable π P) (time : Time) :
    Keeps π cost P (do
      when save saveSnapshot
      sleepUntil time
      when save (setDeadlineIfNeeded id timeout)) E :=
  (keeps_when fun hc => keeps_saveSnapshot ht.toPoised (hsave hc)).bind fun _ =>
    (keeps_sleepUntil ht.toPoised time).bind fun _ =>
      keeps_when fun hc => keeps_setDeadlineIfNeeded ht (hsave hc) id timeout

end timed

section tasks

variable (hb : Bearing π priced hand) (hf : Fair priced cost)
  (hid : priced (TaskId.sha256 id) = false)
include hb hf hid

theorem keeps_runTask (input : Bytes) :
    Keeps π cost (Has hand k) (runTask id input) (Has hand k) := by
  have ht := hb.timed hf k fun hs => hs
  refine keeps_get_bind fun s => ?_
  split
  · exact keeps_executeTask ht.toPoised hid input
  · refine (keeps_perform ht.toPoised (o := .raceTask id input _) rfl (by simp [Op.isFree, hid])
      .ok).bind fun r => ?_
    split
    · exact keeps_ofExcept ht.toPoised _
    · exact (keeps_clearTaskDeadline ht).bind fun _ => keeps_throw ht.toPoised

theorem keeps_executeOrSkipTask (input : Bytes) :
    Keeps π cost (Has hand k) (executeOrSkipTask id input) (Has hand k) := by
  have ht := hb.timed hf k fun hs => hs
  refine keeps_get_bind fun s => ?_
  split
  · exact (keeps_clearTaskDeadline ht).bind fun _ => keeps_pure _
  · refine (keeps_expiredTaskDeadline ht.toPoised).bind fun expired => ?_
    split
    · exact (keeps_clearTaskDeadline ht).bind fun _ => keeps_throw ht.toPoised
    · exact (keeps_refreshTaskDeadline ht).bind fun _ =>
        (keeps_runTask hb hf hid input).bind fun output =>
          (keeps_modify fun _ _ _ hs => ⟨hs.1, hb.mark _ output (hb.deadline none hs.2)⟩).bind
            fun _ => keeps_pure _

theorem keeps_branchExecuteOrSkipTask (input : Bytes) (timeout : Option Duration) :
    Keeps π cost (Has hand k) (branchExecuteOrSkipTask id input timeout) (Has hand k) := by
  have ht := hb.timed hf k fun hs => hs
  refine keeps_get_bind fun s => ?_
  split
  · exact keeps_pure _
  · refine (keeps_setTaskDeadline ht id timeout).bind fun _ =>
      (keeps_executeTask ht.toPoised hid input).bind fun output =>
        (keeps_expiredTaskDeadline ht.toPoised).bind fun expired => ?_
    split
    · exact (keeps_clearTaskDeadline ht).bind fun _ => keeps_throw ht.toPoised
    · exact (keeps_clearTaskDeadline ht).bind fun _ =>
        (keeps_saveTaskResult ht.toPoised _ output).bind fun _ => keeps_pure _

variable {execute : Exec Bytes} (hx : Keeps π cost (Has hand k) execute (Has hand k))
include hx

omit hf in
theorem keeps_attemptTask {onError : RuntimeError → Exec Bytes}
    (herr : ∀ e, Keeps π cost (Has hand k) (onError e) AnyEnd) :
    Keeps π cost (Has hand k) (attemptTask id execute onError) AnyEnd := by
  refine (Keeps.attempt hx).bind fun r => ?_
  cases r with
  | ok output =>
    exact (keeps_modify fun _ _ _ hs => ⟨hs.1, hb.clear hid hs.2⟩).bind fun _ => keeps_pure _
  | error e => exact herr e

theorem keeps_retryLoop (policy : Option RetryPolicy) (timeout : Option Duration) (save : Bool)
    (bound : ℕ) :
    Keeps π cost (Has hand k) (retryLoop id policy timeout save execute bound) AnyEnd := by
  have ht := hb.timed hf k fun (_ : Has hand k _ _ _) => (trivial : AnyEnd _ _ _)
  induction bound with
  | zero => exact keeps_attemptTask hb hid hx fun e => keeps_throw ht.toPoised
  | succ bound ih =>
    refine keeps_attemptTask hb hid hx fun e => keeps_get_bind fun s => ?_
    cases policy with
    | none => exact keeps_throw ht.toPoised
    | some rp =>
      dsimp only
      split
      · exact keeps_throw ht.toPoised
      · refine Costs.bind (Q := fun _ => Has hand k) ((keeps_utcNow ht.toPoised).bind fun now => ?_)
          fun _ => ih
        -- the retry state is computed from the snapshot that is replaced
        exact fun g k' s hs => keeps_awaitRetry ht id timeout save (fun _ => hb.savable) _ g k' _
          ⟨hs.1, hb.deadline none (hb.record rp e now hid hs.2)⟩

end tasks

/-! ## Containers and loops -/

/-- After an iteration the results of the body are forgotten. -/
structure Looping (hand : γ → WorkflowSnapshot → Prop) (cfg : LoopConfig) (trackPosition : Bool) :
    Prop where
  body : ∀ {g s}, hand g s → hand g (clearBodyTasks cfg.body s)
  exit : ∀ {g s}, hand g s → hand g (s.clearLoopIteration (TaskId.sha256 cfg.id))
  next : ∀ {g s} iteration, hand g s →
    hand g (s.setLoopIteration (TaskId.sha256 cfg.id) iteration)
  track : ∀ {g s} iteration, trackPosition → hand g s → hand g (s.updatePosition
    (.inLoop (TaskId.sha256 cfg.id) iteration (some (TaskId.sha256 cfg.body.firstTaskId))))

section containers

variable (hb : Bearing π priced hand) (hf : Fair priced cost)
include hb hf

theorem Bearing.lax (k : ℕ) : Timed π cost priced (Has hand k) AnyEnd :=
  hb.timed hf k fun _ => trivial

theorem keeps_recordAndSave (id : String) (output : Bytes) :
    Keeps π cost (Has hand k) (recordAndSave id output) AnyEnd :=
  (keeps_modify fun _ _ _ hs => ⟨hs.1, hb.mark _ output hs.2⟩).bind fun _ =>
    keeps_saveSnapshot (hb.lax hf k).toPoised hb.savable

theorem uses_executeChild {child : Exec Bytes} (h : Uses π cost hand a child) :
    Uses π cost hand a (executeChild id child) :=
  h.free fun output _ => (keeps_recordAndSave hb hf id output).bind fun _ => keeps_pure output

/-- Routing runs one of the branches it is given. -/
theorem uses_executeRoute {routes : List BranchRun} {default : Option (Proc BranchResult)}
    {recordFn : String → Bytes → Exec Unit}
    (hr : ∀ run, (∃ b ∈ routes, b.2 = run) ∨ default = some run →
      Uses π cost hand a (liftExcept run))
    (hrec : ∀ output, Uses π cost hand 0 (recordFn id output)) (input : Bytes) :
    Uses π cost hand a (executeRoute ex codec id routes default recordFn input) := by
  refine Uses.after (fun k => keeps_perform (hb.lax hf k).toPoised (o := .executeKeyFn id input)
    rfl rfl _) fun keyBytes => ?_
  split
  · exact fun k => keeps_throw (hb.lax hf _).toPoised
  · rename_i key run hres
    exact (hr run (Executor.resolveBranch_mem hres)).free fun output k =>
      (keeps_ofExcept (hb.lax hf k).toPoised _).bind fun envelope =>
        (hrec envelope k).bind fun _ => keeps_pure _

section loops

variable {cfg : LoopConfig} {trackPosition : Bool} (hl : Looping hand cfg trackPosition)
  {executeBody : Bytes → Exec Bytes}
  (hx : ∀ input, Uses π cost hand 0 (executeBody input))
include hl hx

theorem uses_runIterations (codec : EnvelopeCodec) (remaining iteration : ℕ) (input : Bytes) :
    Uses π cost hand 0
      (runIterations codec cfg trackPosition executeBody remaining iteration input) := by
  intro k
  have hp := (hb.lax hf k).toPoised
  induction remaining generalizing iteration input with
  | zero => exact keeps_throw hp
  | succ remaining ih =>
    refine (hx input k).bind fun output =>
      (keeps_modify fun _ _ _ hs => ⟨hs.1, hl.body hs.2⟩).bind fun _ =>
        (keeps_ofExcept hp _).bind fun step => ?_
    cases step with
    | exit inner =>
      exact ((keeps_modify fun _ _ _ hs => ⟨hs.1, hb.mark _ _ (hl.exit hs.2)⟩).bind fun _ =>
        keeps_saveSnapshot hp hb.savable).bind fun _ => keeps_pure _
    | next inner =>
      exact ((keeps_modify fun _ _ _ hs => ⟨hs.1, hl.next _ hs.2⟩).bind fun _ =>
        (keeps_when fun htrack => keeps_modify fun _ _ _ hs => ⟨hs.1, hl.track _ htrack hs.2⟩).bind
          fun _ => keeps_saveSnapshot hp hb.savable).bind fun _ => ih _ _

theorem uses_runLoop (codec : EnvelopeCodec) (input : Bytes) :
    Uses π cost hand 0 (runLoop codec cfg trackPosition executeBody input) :=
  fun k => keeps_get_bind fun _ => uses_runIterations hb hf hl hx codec _ _ input k

end loops

end containers

/-! ## Branches -/

/-- The program of a branch leaves the state of the protocol alone and costs at most `a`. -/
def RunUses (π : Protocol Op Op.Resp γ) (cost : (o : Op) → o.Resp → ℕ) (g : γ) (a : ℕ)
    (p : Proc BranchResult) : Prop :=
  p.Spends cost π.still g a fun _ _ _ => True

/-- The programs of some branches cost at most `a` together. -/
def RunsUse (π : Protocol Op Op.Resp γ) (cost : (o : Op) → o.Resp → ℕ) (g : γ) :
    List BranchRun → ℕ → Prop
  | [], _ => True
  | r :: rs, a => ∃ b c, b + c ≤ a ∧ RunUses π cost g b r.2 ∧ RunsUse π cost g rs c

section runs

variable {g : γ}

omit [Sha256] in
theorem RunsUse.still (h : RunsUse π cost g runs a) : RunsUse π.still cost g runs a := by
  induction runs generalizing a with
  | nil => exact trivial
  | cons r rs ih =>
    obtain ⟨b, c, hle, hr, hrs⟩ := h
    exact ⟨b, c, hle, Prog.Spends.still hr, ih hrs⟩

omit [Sha256] in
theorem RunsUse.mono {a' : ℕ} (h : RunsUse π cost g runs a) (hle : a ≤ a') :
    RunsUse π cost g runs a' := by
  cases runs with
  | nil => exact trivial
  | cons r rs =>
    obtain ⟨b, c, hsum, hr, hrs⟩ := h
    exact ⟨b, c, hsum.trans hle, hr, hrs⟩

omit [Sha256] in
theorem RunsUse.filter (h : RunsUse π cost g runs a) (p : BranchRun → Bool) :
    RunsUse π cost g (runs.filter p) a := by
  induction runs generalizing a with
  | nil => exact trivial
  | cons r rs ih =>
    obtain ⟨b, c, hle, hr, hrs⟩ := h
    cases hp : p r with
    | true =>
      rw [List.filter_cons_of_pos hp]
      exact ⟨b, c, hle, hr, ih hrs⟩
    | false =>
      rw [List.filter_cons_of_neg (by simp [hp])]
      exact (ih hrs).mono (by omega)

omit [Sha256] in
/-- The budget can be shared out among the branches. -/
theorem RunsUse.shares (h : RunsUse π cost g runs a) : ∃ ks : Fin runs.length → ℕ,
    ∑ i, ks i ≤ a ∧ ∀ i, RunUses π cost g (ks i) (runs.get i).2 := by
  induction runs generalizing a with
  | nil => exact ⟨fun _ => 0, by simp, fun i => i.elim0⟩
  | cons r rs ih =>
    obtain ⟨b, c, hle, hr, hrs⟩ := h
    obtain ⟨ks, hsum, hks⟩ := ih hrs
    exact ⟨Fin.cons b ks, (Fin.sum_cons b ks).trans_le (by omega), fun i => Fin.cases hr hks i⟩

omit [Sha256] in
/-- The program of a branch, run from the main path. -/
theorem uses_run {p : Proc BranchResult} (h : ∀ g s, hand g s → RunUses π cost g a p)
    (f : BranchResult → Except RuntimeError α) :
    Uses π cost hand a fun s => p.bind fun r => .pure (f r, s) := by
  refine Costs.uses ?_
  rintro g _ s ⟨rfl, hs⟩
  refine Prog.Spends.bind (Prog.Spends.mono (Prog.Spends.of_still (h g s hs)) fun g' k' r hr => ?_)
  obtain ⟨rfl, -⟩ := hr
  cases f r with
  | ok a => exact hs
  | error e => exact trivial

omit [Sha256] in
theorem uses_par (fatal : BranchResult → Bool) (hr : ∀ g s, hand g s → RunsUse π cost g runs a) :
    Uses π cost hand a (lift (.par runs.length fatal (fun i => (runs.get i).2) .pure)) := by
  rintro k g k' s ⟨hk, hs⟩
  obtain ⟨ks, hsum, hks⟩ := (hr g s hs).shares
  exact ⟨ks, k, by omega, hks, fun rs => ⟨le_rfl, hs⟩⟩

/-- The snapshot in the hands of a branch. -/
abbrev OwnCopy (g : γ) (copy : WorkflowSnapshot → Prop) : γ → WorkflowSnapshot → Prop :=
  fun g' s => g' = g ∧ copy s

omit [Sha256] in
/-- A branch may do what the main path may do, if no save changes the state. -/
theorem Bearing.still (h : Bearing π priced hand) (g : γ)
    (hsave : ∀ {s r g'}, hand g s → π.next g (.saveSnapshot s) r g' → g' = g) :
    Bearing π.still priced (OwnCopy g (hand g)) where
  quiet hs ho := by
    obtain ⟨rfl, hs⟩ := hs
    exact ⟨h.quiet hs ho, (h.quiet hs ho).2⟩
  deadline d hs := ⟨hs.1, h.deadline d hs.2⟩
  mark t output hs := ⟨hs.1, h.mark t output hs.2⟩
  record policy e now hid hs := ⟨hs.1, h.record policy e now hid hs.2⟩
  clear hid hs := ⟨hs.1, h.clear hid hs.2⟩
  save hs := by
    obtain ⟨rfl, hs⟩ := hs
    exact ⟨⟨(h.save hs).1, fun _ _ hr => hsave hs hr⟩, fun _ _ hr => ⟨hsave hs hr, hs⟩⟩

variable {copy : WorkflowSnapshot → Prop}

omit [Sha256] in
theorem uses_executeNestedBranches (h : RunsUse π cost g runs a) :
    Uses π.still cost (OwnCopy g copy) a (executeNestedBranches runs) := by
  induction runs generalizing a with
  | nil => exact uses_pure _
  | cons r runs ih =>
    obtain ⟨b, c, hle, hr, hrs⟩ := h
    have hrun : ∀ g' s, OwnCopy g copy g' s → RunUses π.still cost g' b r.2 := by
      rintro g' s ⟨rfl, -⟩
      exact Prog.Spends.still hr
    exact ((uses_run hrun id).bind fun output =>
      (ih hrs).free fun results k => keeps_pure _).mono hle

variable (hb : Bearing π.still priced (OwnCopy g copy)) (hf : Fair priced cost)
include hb hf

theorem uses_executeNested (ex : Executor) (h : RunsUse π cost g runs a) :
    Uses π.still cost (OwnCopy g copy) a (ex.executeNested runs) := by
  cases ex with
  | callback => exact uses_executeNestedBranches h
  | runner index =>
    refine (uses_par endsNestedFork fun g' s hs => ?_).free fun results k =>
      keeps_ofExcept (hb.lax hf k).toPoised _
    exact hs.1 ▸ h.still

theorem keeps_recordRouted (ex : Executor) (id : String) (output : Bytes) :
    Keeps π.still cost (Has (OwnCopy g copy) k) (ex.recordRouted id output) AnyEnd := by
  cases ex with
  | callback => exact keeps_saveTaskResult (hb.lax hf k).toPoised _ output
  | runner index => exact keeps_recordAndSave hb hf id output

omit hb in
/-- A branch works on its own copy of the stored snapshot. -/
theorem runUses_onLoadedSnapshot (hload : π.still.allows g .loadSnapshot
      ∧ ∀ t g', π.next g .loadSnapshot (.ok t) g' → copy t) {m : Exec Bytes} {Q : Bytes → Standing γ}
    (h : Costs π.still cost (Has (OwnCopy g copy) a) m Q AnyEnd) :
    RunUses π cost g a (onLoadedSnapshot m) := by
  refine Prog.Spends.op (hf rfl) hload.1 fun r g' hr => ?_
  obtain rfl := hload.1.2 r g' hr
  cases r with
  | error e => exact trivial
  | ok s =>
    exact Prog.Spends.bind ((h g' a s ⟨le_rfl, rfl, hload.2 s g' hr⟩).mono fun _ _ _ _ => trivial)

end runs

/-! ## Trees -/

/-- What the nodes with these ids may cost, if each of those that cost something has the
allowance `b`. -/
def allowance (priced : TaskId → Bool) (b : ℕ) (ids : List TaskId) : ℕ := ids.countP priced * b

section allowances

variable {b : ℕ} {rs : List (String × WorkflowContinuation)}

omit [Sha256] in
theorem allowance_append (l l' : List TaskId) :
    allowance priced b (l ++ l') = allowance priced b l + allowance priced b l' := by
  simp [allowance, Nat.add_mul]

omit [Sha256] in
theorem allowance_cons (i : TaskId) (l : List TaskId) :
    allowance priced b (i :: l) = (if priced i then b else 0) + allowance priced b l := by
  simp only [allowance, List.countP_cons, Nat.add_mul, ite_mul, one_mul, zero_mul, Nat.add_comm]

theorem allowance_route {r : String × WorkflowContinuation} (hr : r ∈ rs) :
    allowance priced b r.2.ids ≤ allowance priced b (idsRoutes rs) := by
  induction rs with
  | nil => cases hr
  | cons x rs ih =>
    rw [idsRoutes_cons, allowance_append]
    rcases List.mem_cons.mp hr with rfl | hmem
    · exact Nat.le_add_right _ _
    · exact (ih hmem).trans (Nat.le_add_left _ _)

theorem runsUse_map {g : γ} {f : WorkflowContinuation → BranchRun}
    (h : ∀ c ∈ branches, RunUses π cost g (allowance priced b c.ids) (f c).2) :
    RunsUse π cost g (branches.map f) (allowance priced b (idsBranches branches)) := by
  induction branches with
  | nil => exact trivial
  | cons c cs ih =>
    rw [idsBranches_cons, allowance_append]
    exact ⟨_, _, le_rfl, h c List.mem_cons_self, ih fun c hc => h c (List.mem_cons_of_mem _ hc)⟩

end allowances

/-- The direct subtrees that are run as branches. -/
def WorkflowContinuation.branched : WorkflowContinuation → List WorkflowContinuation
  | .fork _ branches _ => branches
  | .branch _ _ branches default _ => branches.map Prod.snd ++ default.toList
  | _ => []

/-- The direct subtrees that the path of a node runs through. -/
def WorkflowContinuation.onPath : WorkflowContinuation → List WorkflowContinuation
  | .task _ _ next | .delay _ _ next | .awaitSignal _ _ _ next | .fork _ _ next
  | .branch _ _ _ _ next => next.toList
  | .loop _ body _ _ next | .childWorkflow _ body next => body :: next.toList

omit [Sha256] in
theorem WorkflowContinuation.children_eq (c : WorkflowContinuation) :
    c.children = c.branched ++ c.onPath := by
  cases c <;> simp [children, branched, onPath]

/-- The snapshot that points at the node that follows. -/
def Executor.onward (ex : Executor) (next : Option WorkflowContinuation) (s : WorkflowSnapshot) :
    WorkflowSnapshot :=
  match next with
  | none => s
  | some n => (s.updatePosition (.atTask (ex.nextHint n).id)).setTaskHint (ex.nextHint n)

/-- Park at a wait, with the hint of what follows it. -/
def parkAt (position : Option TaskId → ExecutionPosition) (next : Option WorkflowContinuation)
    (s : WorkflowSnapshot) : WorkflowSnapshot :=
  (s.setTaskHint ((next.map firstTaskHint).getD default)).updatePosition
    (position ((next.map firstTaskHint).map TaskHint.id))

/-- An instance that is neither cancelled nor paused goes on as it was. -/
structure Guarded (π : Protocol Op Op.Resp γ) : Prop where
  cancel : ∀ g scope, π.allows g (.checkAndCancel scope)
    ∧ ∀ g', π.next g (.checkAndCancel scope) (.ok false) g' → g' = g
  pause : ∀ g, π.allows g .checkAndPause ∧ ∀ g', π.next g .checkAndPause (.ok false) g' → g' = g

/-- What a protocol has to allow an execution. The nodes of the main path satisfy `node`,
those inside of branches satisfy `inner`; `copy` relates the snapshot that a branch works
on to the state of the protocol. -/
structure Conduct (π : Protocol Op Op.Resp γ) (cost : (o : Op) → o.Resp → ℕ)
    (priced : TaskId → Bool) (b : ℕ) (ex : Executor) (node inner : WorkflowContinuation → Prop)
    (hand copy : γ → WorkflowSnapshot → Prop) : Prop where
  fair : Fair priced cost
  guards : Guarded π
  main : Bearing π priced hand
  branch : ∀ {g s}, hand g s → Bearing π.still priced (OwnCopy g (copy g))
  load : ∀ {g s}, hand g s → π.still.allows g .loadSnapshot
    ∧ ∀ t g', π.next g .loadSnapshot (.ok t) g' → copy g t
  onward : ∀ {c m}, node c → m ∈ c.onPath → node m
  aside : ∀ {c m}, node c → m ∈ c.branched → inner m
  inside : ∀ {c m}, inner c → m ∈ c.children → inner m
  /-- The retry loop of a task that costs something stays within its allowance. -/
  task : ∀ {id fields next} input, node (.task id fields next) → priced (TaskId.sha256 id) →
    Costs π cost (fun g k s => k = b ∧ hand g s) (retryWithCheckpoint id fields.retryPolicy
      fields.timeout true (executeOrSkipTask id input)) (fun _ g _ s => hand g s) AnyEnd
  innerTask : ∀ {id fields next g s} input, inner (.task id fields next) →
    priced (TaskId.sha256 id) → hand g s →
    Costs π.still cost (fun g' k s' => k = b ∧ OwnCopy g (copy g) g' s')
      (retryWithCheckpoint id fields.retryPolicy fields.timeout false
        (branchExecuteOrSkipTask id input fields.timeout))
      (fun _ g' _ s' => OwnCopy g (copy g) g' s') AnyEnd
  advance : ∀ {n g s}, node n → hand g s → hand g (ex.onward (some n) s)
  join : ∀ {g s} taskId completed, hand g s → hand g (s.updatePosition (.atJoin taskId completed))
  parkDelay : ∀ {id duration next g s} now wakeAt passthrough,
    node (.delay id duration next) → hand g s → π.allows g (.saveSnapshot
      ((parkAt (.atDelay (TaskId.sha256 id) now wakeAt) next s).markTaskCompleted
        (TaskId.sha256 id) passthrough))
  parkSignal : ∀ {id signalName timeout next g s} wakeAt,
    node (.awaitSignal id signalName timeout next) → hand g s → π.allows g (.saveSnapshot
      (parkAt (.atSignal (TaskId.sha256 id) signalName wakeAt) next s))
  parkFork : ∀ {g s} forkId completed wakeAt, copy g s →
    π.allows g (.saveSnapshot (s.updatePosition (.atFork forkId completed wakeAt)))
  loop : ∀ {id body maxIterations onMax next}, node (.loop id body maxIterations onMax next) →
    Looping hand ⟨id, body, maxIterations, onMax⟩ true
  innerLoop : ∀ {id body maxIterations onMax next g},
    inner (.loop id body maxIterations onMax next) →
    Looping (OwnCopy g (copy g)) ⟨id, body, maxIterations, onMax⟩ false
  /-- Nothing in the body of a loop costs anything. -/
  bodies : ∀ {id body maxIterations onMax next}, node (.loop id body maxIterations onMax next)
    ∨ inner (.loop id body maxIterations onMax next) → allowance priced b body.ids = 0

section trees

variable {b : ℕ} {node inner : WorkflowContinuation → Prop}
  {copy : γ → WorkflowSnapshot → Prop}

/-- What follows a node, on the path that `walk` takes. -/
theorem uses_next {walk : WorkflowContinuation → Bytes → Exec Bytes}
    {walkNext : Option WorkflowContinuation → Bytes → Exec Bytes}
    (hnone : ∀ output, walkNext none output = pure output)
    (hsome : ∀ n output, walkNext (some n) output = walk n output)
    (h : ∀ n, next = some n → ∀ output,
      Uses π cost hand (allowance priced b n.ids) (walk n output)) (output : Bytes) :
    Uses π cost hand (allowance priced b (idsNext next)) (walkNext next output) := by
  cases next with
  | none =>
    rw [hnone]
    exact uses_pure output
  | some n =>
    rw [hsome]
    exact h n rfl output

/-- A node that may be passed over has a budget for what it might do. -/
theorem Uses.skip {compute : Exec Bytes} (h : Uses π cost hand a compute) :
    Uses π cost hand a (skipIfRecorded id compute) := fun k =>
  keeps_skipIfRecorded (fun _ _ _ hs => ⟨(Nat.le_add_right k a).trans hs.1, hs.2⟩) (h k)

variable (hc : Conduct π cost priced b ex node inner hand copy)
include hc

theorem uses_branchTask {g : γ} {fields : TaskFields} (hs : hand g s)
    (hn : inner (.task id fields next)) (input : Bytes) :
    Uses π.still cost (OwnCopy g (copy g)) (if priced (TaskId.sha256 id) then b else 0)
      (retryWithCheckpoint id fields.retryPolicy fields.timeout false
        (branchExecuteOrSkipTask id input fields.timeout)) := by
  by_cases hid : priced (TaskId.sha256 id)
  · rw [if_pos hid]
    exact (hc.innerTask input hn hid hs).uses
  · rw [if_neg hid]
    have hfree : priced (TaskId.sha256 id) = false := by simpa using hid
    exact fun k => keeps_retryLoop (hc.branch hs) hc.fair hfree
      (keeps_branchExecuteOrSkipTask (hc.branch hs) hc.fair hfree input _) _ _ _ _

theorem Uses.branch {g : γ} {c : WorkflowContinuation} {input : Bytes} (hs : hand g s)
    (h : Uses π.still cost (OwnCopy g (copy g)) a (branchChain ex codec c input)) :
    RunUses π cost g a (executeBranch ex codec c input) := by
  have h := h 0
  rw [Nat.zero_add] at h
  exact runUses_onLoadedSnapshot hc.fair (hc.load hs) h

/-- **A branch leaves the state of the protocol alone** and costs at most its allowance. -/
theorem branchChain_uses (codec : EnvelopeCodec) {g : γ} (hs : hand g s)
    (c : WorkflowContinuation) : inner c → ∀ input, Uses π.still cost (OwnCopy g (copy g))
      (allowance priced b c.ids) (branchChain ex codec c input) := by
  have hb := hc.branch hs
  have hp := fun k => (hb.lax hc.fair k).toPoised
  have hlift : ∀ {p : Proc BranchResult} {a a' : ℕ}, RunUses π cost g a p → a ≤ a' →
      Uses π.still cost (OwnCopy g (copy g)) a' (liftExcept p) := by
    intro p a a' h hle
    exact (uses_run (fun g' s' hs' => hs'.1 ▸ Prog.Spends.still h) id).mono hle
  have hnext : ∀ {c : WorkflowContinuation} {next : Option WorkflowContinuation}, inner c →
      (∀ n, next = some n → n ∈ c.children) → (∀ n, next = some n → inner n → ∀ input,
        Uses π.still cost (OwnCopy g (copy g)) (allowance priced b n.ids)
          (branchChain ex codec n input)) →
      ∀ output, Uses π.still cost (OwnCopy g (copy g)) (allowance priced b (idsNext next))
        (branchNext ex codec next output) := fun hn hmem ih =>
    uses_next (fun _ => rfl) (fun _ _ => rfl) fun n h => ih n h (hc.inside hn (hmem n h))
  induction c using induct with
  | task id fields next ih =>
    intro hn input
    rw [ids_task, allowance_cons]
    exact Uses.after (fun k => keeps_requireFunc (hp k) ex _ _) fun _ =>
      (uses_branchTask hc hs hn input).bind (hnext hn (by simp +contextual [children]) ih)
  | delay id duration next ih =>
    intro hn input
    rw [ids_delay, allowance_cons]
    refine Uses.mono (Uses.after (fun k => keeps_skipIfRecorded (fun _ _ _ hs => hs) ?_)
      (hnext hn (by simp +contextual [children]) ih)) (Nat.le_add_left _ _)
    exact (keeps_reached (hp _) id).bind fun _ =>
      (keeps_computeWakeAt (hp _) duration).bind fun _ =>
        (keeps_saveTaskResult (hp _) _ input).bind fun _ => keeps_throw (hp _)
  | awaitSignal id signalName timeout next ih =>
    intro hn input
    rw [ids_awaitSignal, allowance_cons]
    refine Uses.mono (Uses.after (fun k => keeps_skipIfRecorded (fun _ _ _ hs => hs) ?_)
      (hnext hn (by simp +contextual [children]) ih)) (Nat.le_add_left _ _)
    exact (keeps_reached (hp _) id).bind fun _ =>
      (keeps_computeSignalTimeout (hp _) timeout).bind fun _ => keeps_throw (hp _)
  | fork id branches join ihb ihj =>
    intro hn input
    rw [ids_fork, allowance_cons, allowance_append]
    have hruns : RunsUse π cost g (branchRuns ex codec branches input)
        (allowance priced b (idsBranches branches)) := by
      rw [branchRuns_eq_map]
      exact runsUse_map fun c hmem =>
        Uses.branch hc hs (ihb c hmem (hc.inside hn (by simp [children, hmem])) input)
    refine Uses.mono ((uses_executeNested hb hc.fair ex hruns).bind fun results =>
      Uses.after (fun k => keeps_ofExcept (hp k) _) fun resolution => ?_) (Nat.le_add_left _ _)
    cases resolution with
    | «continue» joinInput => exact hnext hn (by simp +contextual [children]) ihj joinInput
    | done output => exact uses_pure output
  | branch id keyFn branches default next ihr ihd ihn =>
    intro hn input
    rw [ids_branch, allowance_cons, allowance_append, allowance_append, ← Nat.add_assoc _ _
      (allowance priced b (idsNext next))]
    refine Uses.mono (Uses.after (fun k => keeps_requireFunc (hp k) ex _ _) fun _ =>
      (Uses.skip (uses_executeRoute hb hc.fair ?_ (fun output k => keeps_recordRouted hb hc.fair ex
        id output) input)).bind (hnext hn (by simp +contextual [children]) ihn)) (Nat.le_add_left _ _)
    rw [routeRuns_eq_map, defaultRun_eq_map]
    rintro run (⟨r, hr, rfl⟩ | hdef)
    · obtain ⟨r, hmem, rfl⟩ := List.mem_map.mp hr
      exact hlift (Uses.branch hc hs (ihr r hmem (hc.inside hn (by simp only [children]; grind)) input))
        ((allowance_route hmem).trans (Nat.le_add_right _ _))
    · obtain ⟨d, rfl, rfl⟩ := Option.map_eq_some_iff.mp hdef
      exact hlift (Uses.branch hc hs (ihd d rfl (hc.inside hn (by simp [children])) input))
        (Nat.le_add_left _ _)
  | loop id body maxIterations onMax next ihb ihn =>
    intro hn input
    rw [ids_loop, allowance_cons, allowance_append]
    refine Uses.mono (Uses.after (Uses.skip (uses_runLoop hb hc.fair (hc.innerLoop hn) (fun i => ?_)
      codec input)) (hnext hn (by simp +contextual [children]) ihn)) (by omega)
    exact hlift (Uses.branch hc hs (ihb (hc.inside hn (by simp [children])) i)) (hc.bodies (.inr hn)).le
  | childWorkflow id child next ihc ihn =>
    intro hn input
    rw [ids_childWorkflow, allowance_cons, allowance_append]
    exact Uses.mono ((Uses.skip (uses_executeChild hb hc.fair
      (hlift (Uses.branch hc hs (ihc (hc.inside hn (by simp [children])) input)) le_rfl))).bind
        (hnext hn (by simp +contextual [children]) ihn)) (Nat.le_add_left _ _)

theorem executeBranch_uses (codec : EnvelopeCodec) {g : γ} (hs : hand g s)
    {c : WorkflowContinuation} (hin : inner c) (input : Bytes) :
    RunUses π cost g (allowance priced b c.ids) (executeBranch ex codec c input) :=
  Uses.branch hc hs (branchChain_uses hc codec hs c hin input)

/-! ## The main path -/

theorem Conduct.poised (k : ℕ) : Poised π cost priced (Has hand k) AnyEnd :=
  (hc.main.lax hc.fair k).toPoised

theorem keeps_onward (hn : ∀ n, next = some n → node n) :
    Keeps π cost (Has hand k) (advanceTo (next.map ex.nextHint)) AnyEnd := by
  cases next with
  | none => exact keeps_pure _
  | some n => exact keeps_modify fun _ _ _ hs => ⟨hs.1, hc.advance (hn n rfl) hs.2⟩

omit hc in
theorem costs_checkAndCancel {P : Standing γ} (hg : Guarded π) (hf : Fair priced cost)
    (scope : Option TaskId) : Costs π cost P (checkAndCancel scope)
      (fun cancelled g k s => cancelled = false → P g k s) AnyEnd := by
  refine costs_perform (hf rfl) fun g k s hs => ⟨(hg.cancel g scope).1, fun r g' hr => ?_⟩
  match r with
  | .error e => exact trivial
  | .ok true => exact nofun
  | .ok false =>
    obtain rfl := (hg.cancel g scope).2 g' hr
    exact fun _ => hs

omit hc in
theorem costs_checkAndPause {P : Standing γ} (hg : Guarded π) (hf : Fair priced cost) :
    Costs π cost P checkAndPause (fun paused g k s => paused = false → P g k s) AnyEnd := by
  refine costs_perform (hf rfl) fun g k s hs => ⟨(hg.pause g).1, fun r g' hr => ?_⟩
  match r with
  | .error e => exact trivial
  | .ok true => exact nofun
  | .ok false =>
    obtain rfl := (hg.pause g).2 g' hr
    exact fun _ => hs

theorem keeps_checkGuards {P : Standing γ} (scope : Option TaskId) :
    Keeps π cost P (checkGuards scope) AnyEnd := by
  refine (costs_checkAndCancel hc.guards hc.fair scope).bind fun cancelled => ?_
  cases cancelled with
  | true => exact costs_throw fun _ _ _ _ => trivial
  | false =>
    refine Costs.bind ((costs_checkAndPause hc.guards hc.fair).pre fun _ _ _ h => h rfl)
      fun paused => ?_
    cases paused with
    | true => exact costs_throw fun _ _ _ _ => trivial
    | false => exact costs_pure fun _ _ _ h => h rfl

theorem uses_executeTaskStep {fields : TaskFields} (hid : node (.task id fields next))
    (input : Bytes) : Uses π cost hand (if priced (TaskId.sha256 id) then b else 0)
      (executeTaskStep id fields (next.map ex.nextHint) input) := by
  have htry : Uses π cost hand (if priced (TaskId.sha256 id) then b else 0)
      (retryWithCheckpoint id fields.retryPolicy fields.timeout true
        (executeOrSkipTask id input)) := by
    by_cases hpriced : priced (TaskId.sha256 id)
    · rw [if_pos hpriced]
      exact (hc.task input hid hpriced).uses
    · rw [if_neg hpriced]
      have hfree : priced (TaskId.sha256 id) = false := by simpa using hpriced
      exact fun k => keeps_retryLoop hc.main hc.fair hfree
        (keeps_executeOrSkipTask hc.main hc.fair hfree input) _ _ _ _
  refine Uses.after (fun k => keeps_checkGuards hc _) fun _ =>
    Uses.after (fun k => keeps_setDeadlineIfNeeded (hc.main.lax hc.fair k) hc.main.savable id _)
      fun _ => htry.free fun output k => ?_
  exact (keeps_onward hc fun n h => hc.onward hid (by simp [onPath, h])).bind fun _ =>
    (keeps_saveSnapshot (hc.poised k) hc.main.savable).bind fun _ =>
      (keeps_checkGuards hc none).bind fun _ => keeps_pure output

/-- Save a park checkpoint and stop. -/
theorem spends_saveAndStop {g : γ} {Q : α → Standing γ} (hs : π.allows g (.saveSnapshot s))
    (e : RuntimeError) :
    ((do saveSnapshot; throw e : Exec α) s).Spends cost π g k (EndsIn Q AnyEnd) := by
  refine Prog.Spends.op (hc.fair rfl) hs fun r g' _ => ?_
  cases r <;> exact trivial

theorem keeps_mainDelay {duration : Duration} (hid : node (.delay id duration next))
    (input : Bytes) : Keeps π cost (Has hand k) (mainDelay id duration next input) AnyEnd := by
  refine (keeps_checkGuards hc _).bind fun _ => keeps_get_bind fun s => ?_
  split
  · exact keeps_pure input
  · exact (keeps_reached (hc.poised k) id).bind fun _ =>
      (keeps_computeWakeAt (hc.poised k) duration).bind fun wakeAt =>
        (keeps_utcNow (hc.poised k)).bind fun now => fun g k' s hs =>
          spends_saveAndStop hc (hc.parkDelay now wakeAt input hid hs.2) _

theorem keeps_mainAwaitSignal {signalName : String} {timeout : Option Duration}
    (hid : node (.awaitSignal id signalName timeout next)) (input : Bytes) :
    Keeps π cost (Has hand k) (mainAwaitSignal ex id signalName timeout next input) AnyEnd := by
  refine (keeps_checkGuards hc _).bind fun _ => keeps_skipIfRecorded (fun _ _ _ hs => hs) ?_
  refine (keeps_reached (hc.poised k) id).bind fun _ => Costs.bind (keeps_perform (hc.poised k)
    (o := .consumeEvent signalName) rfl rfl _) fun event => ?_
  cases event with
  | some payload =>
    exact (keeps_modify fun _ _ _ hs => ⟨hs.1, hc.main.mark _ payload hs.2⟩).bind fun _ =>
      (keeps_onward hc fun n h => hc.onward hid (by simp [onPath, h])).bind fun _ =>
        (keeps_saveSnapshot (hc.poised k) hc.main.savable).bind fun _ =>
          keeps_get_bind fun s => keeps_pure _
  | none =>
    exact (keeps_computeSignalTimeout (hc.poised k) timeout).bind fun wakeAt => fun g k' s hs =>
      spends_saveAndStop hc (hc.parkSignal wakeAt hid hs.2) _

/-! ## Forks on the main path -/

/-- What the main path holds while its branches run. -/
abbrev AtState (hand : γ → WorkflowSnapshot → Prop) (g : γ) : γ → WorkflowSnapshot → Prop :=
  fun g' s => g' = g ∧ hand g s

theorem Conduct.atState (g : γ) (k : ℕ) : Poised π cost priced (Has (AtState hand g) k) AnyEnd where
  fair := hc.fair
  err _ := trivial
  quiet hs ho := by
    obtain ⟨-, rfl, hs⟩ := hs
    exact hc.main.quiet hs ho

theorem uses_executeForkBranchesSequential {g : γ} (hr : RunsUse π cost g runs a) :
    Uses π cost (AtState hand g) a (executeForkBranchesSequential runs o) := by
  induction runs generalizing a o with
  | nil => exact uses_pure o
  | cons r runs ih =>
    obtain ⟨c, d, hle, hrun, hruns⟩ := hr
    have hrest : ∀ res, Uses π cost (AtState hand g) d
        (ofExcept (o.add r.1 res) >>= executeForkBranchesSequential runs) := fun res =>
      Uses.after (fun k => keeps_ofExcept (hc.atState g k) _) fun o' => ih hruns
    refine fun k => keeps_get_bind fun s => ?_
    split
    · exact (hrest _).mono (by omega) k
    · have hlift : ∀ g' s, AtState hand g g' s → RunUses π cost g' c r.2 := by
        rintro g' s ⟨rfl, -⟩
        exact hrun
      refine Uses.mono ((uses_run hlift .ok).bind fun res =>
        Uses.after (fun k => ?_) fun _ => hrest res) hle k
      cases res with
      | ok output =>
        exact (keeps_modify fun _ _ _ hs => ⟨hs.1, hs.2.1, hc.main.mark _ output hs.2.2⟩).bind
          fun _ => keeps_saveTaskResult (hc.atState g _) _ output
      | error e => exact keeps_pure ()

theorem uses_executeForkBranches (hr : ∀ g s, hand g s → RunsUse π cost g runs a) :
    Uses π cost hand a (ex.executeForkBranches runs) := by
  cases ex with
  | callback =>
    rintro k g k' s ⟨hk, hs⟩
    refine Costs.mono (uses_executeForkBranchesSequential hc (hr g s hs) k) (fun _ _ _ h => h) ?_
      (fun _ _ _ h => h) g k' s ⟨hk, rfl, hs⟩
    rintro o g' k' s ⟨hk, rfl, hs⟩
    exact ⟨hk, hs⟩
  | runner index =>
    exact fun k => keeps_get_bind fun s => Uses.free (uses_par endsFork fun g s hs =>
      (hr g s hs).filter _) (fun rs k => keeps_ofExcept (hc.poised k) _) k

theorem keeps_saveTaskResults (results : List (String × Bytes)) :
    Keeps π cost (Has hand k) (saveTaskResults results) AnyEnd := by
  induction results with
  | nil => exact keeps_pure ()
  | cons r results ih => exact (keeps_saveTaskResult (hc.poised k) _ _).bind fun _ => ih

theorem hand_markResults {g : γ} (results : List (String × Bytes)) (hs : hand g s) :
    hand g (markResults results s) := by
  unfold markResults
  induction results generalizing s with
  | nil => exact hs
  | cons r results ih => exact ih (hc.main.mark _ _ hs)

/-- The branches are settled: the fork is parked, or left for its join. -/
theorem keeps_settleForkOutcome (id : String) (o : ForkBranchOutcome)
    (join : Option WorkflowContinuation) :
    Keeps π cost (Has hand k) (settleForkOutcome id o join) AnyEnd := by
  unfold settleForkOutcome
  cases o.maxWakeAt with
  | some wakeAt =>
    -- the snapshot in hand is replaced by the stored one
    refine (keeps_saveTaskResults hc o.results).bind fun _ => fun g k' s hs => ?_
    refine Prog.Spends.op (hc.fair rfl) (hc.load hs.2).1.1 fun r g' hr => ?_
    obtain rfl := (hc.load hs.2).1.2 r g' hr
    cases r with
    | error e => exact trivial
    | ok t =>
      refine Prog.Spends.op (hc.fair rfl) (hc.parkFork _ _ wakeAt ((hc.load hs.2).2 t g' hr))
        fun r g₁ _ => ?_
      cases r <;> exact trivial
  | none =>
    refine (keeps_checkGuards hc none).bind fun _ => Costs.bind (Q := fun _ => Has hand k)
      ((keeps_modify fun g k' s hs => ⟨hs.1, ?_⟩).bind fun _ =>
        keeps_saveSnapshot (hc.poised k) hc.main.savable) fun _ => keeps_pure _
    cases join with
    | none => exact hand_markResults hc _ hs.2
    | some j => exact hc.join _ _ (hand_markResults hc _ hs.2)

theorem uses_mainFork (codec : EnvelopeCodec) (hid : node (.fork id branches join))
    (input : Bytes) : Uses π cost hand (allowance priced b (idsBranches branches))
      (mainFork ex id (branchRuns ex codec branches input) join) := by
  refine Uses.after (fun k => keeps_checkGuards hc none) fun _ k => keeps_get_bind fun s => ?_
  split
  · exact uses_pure _ k
  · refine Uses.free (uses_executeForkBranches hc fun g s hs => ?_)
      (fun o k => keeps_settleForkOutcome hc id o join) k
    rw [branchRuns_eq_map]
    exact runsUse_map fun c hmem =>
      executeBranch_uses hc codec hs (hc.aside hid (by simp [branched, hmem])) input

/-- **The main path keeps to the protocol** and costs at most its allowance. -/
theorem executeMain_uses (codec : EnvelopeCodec) (c : WorkflowContinuation) : node c →
    ∀ input, Uses π cost hand (allowance priced b c.ids) (executeMain ex codec c input) := by
  have hnext : ∀ {c : WorkflowContinuation} {next : Option WorkflowContinuation}, node c →
      (∀ n, next = some n → n ∈ c.onPath) → (∀ n, next = some n → node n → ∀ input,
        Uses π cost hand (allowance priced b n.ids) (executeMain ex codec n input)) →
      ∀ output, Uses π cost hand (allowance priced b (idsNext next))
        (mainNext ex codec next output) := fun hn hmem ih =>
    uses_next (fun _ => rfl) (fun _ _ => rfl) fun n h => ih n h (hc.onward hn (hmem n h))
  induction c using induct with
  | task id fields next ih =>
    intro hn input
    rw [ids_task, allowance_cons]
    exact Uses.after (fun k => keeps_requireFunc (hc.poised k) ex _ _) fun _ =>
      (uses_executeTaskStep hc hn input).bind (hnext hn (by simp +contextual [onPath]) ih)
  | delay id duration next ih =>
    intro hn input
    rw [ids_delay, allowance_cons]
    exact Uses.mono (Uses.after (fun k => keeps_mainDelay hc hn input)
      (hnext hn (by simp +contextual [onPath]) ih)) (Nat.le_add_left _ _)
  | awaitSignal id signalName timeout next ih =>
    intro hn input
    rw [ids_awaitSignal, allowance_cons]
    exact Uses.mono (Uses.after (fun k => keeps_mainAwaitSignal hc hn input)
      (hnext hn (by simp +contextual [onPath]) ih)) (Nat.le_add_left _ _)
  | fork id branches join _ ihj =>
    intro hn input
    rw [ids_fork, allowance_cons, allowance_append]
    refine Uses.mono ((uses_mainFork hc codec hn input).bind fun results =>
      Uses.after (fun k => keeps_ofExcept (hc.poised k) _) fun resolution => ?_)
        (Nat.le_add_left _ _)
    cases resolution with
    | «continue» joinInput => exact hnext hn (by simp +contextual [onPath]) ihj joinInput
    | done output => exact uses_pure output
  | branch id keyFn branches default next _ _ ihn =>
    intro hn input
    rw [ids_branch, allowance_cons, allowance_append, allowance_append, ← Nat.add_assoc _ _
      (allowance priced b (idsNext next))]
    have hlift : ∀ m a, allowance priced b m.ids ≤ a → inner m →
        Uses π cost hand a (liftExcept (executeBranch ex codec m input)) := fun m a hle hin =>
      (uses_run (fun g s hs => executeBranch_uses hc codec hs hin input) fun r => r).mono hle
    refine Uses.mono (Uses.after (fun k => keeps_requireFunc (hc.poised k) ex _ _) fun _ =>
      Uses.after (fun k => keeps_checkGuards hc _) fun _ => (Uses.skip (uses_executeRoute hc.main
        hc.fair ?_ (fun output k => keeps_recordAndSave hc.main hc.fair id output) input)).bind
          (hnext hn (by simp +contextual [onPath]) ihn)) (Nat.le_add_left _ _)
    rw [routeRuns_eq_map, defaultRun_eq_map]
    rintro run (⟨r, hr, rfl⟩ | hdef)
    · obtain ⟨r, hmem, rfl⟩ := List.mem_map.mp hr
      exact hlift r.2 _ ((allowance_route hmem).trans (Nat.le_add_right _ _))
        (hc.aside hn (by simp only [branched]; grind))
    · obtain ⟨d, rfl, rfl⟩ := Option.map_eq_some_iff.mp hdef
      exact hlift d _ (Nat.le_add_left _ _) (hc.aside hn (by simp [branched]))
  | loop id body maxIterations onMax next ihb ihn =>
    intro hn input
    rw [ids_loop, allowance_cons, allowance_append]
    refine Uses.mono (Uses.after (fun k => keeps_checkGuards hc _) fun _ => Uses.after (Uses.skip
      (uses_runLoop hc.main hc.fair (hc.loop hn) (fun i => ?_) codec input))
        (hnext hn (by simp +contextual [onPath]) ihn)) (by omega)
    exact (ihb (hc.onward hn (by simp [onPath])) i).mono (hc.bodies (.inl hn)).le
  | childWorkflow id child next ihc ihn =>
    intro hn input
    rw [ids_childWorkflow, allowance_cons, allowance_append]
    exact Uses.mono (Uses.after (fun k => keeps_checkGuards hc _) fun _ => (Uses.skip
      (uses_executeChild hc.main hc.fair (ihc (hc.onward hn (by simp [onPath])) input))).bind
        (hnext hn (by simp +contextual [onPath]) ihn)) (Nat.le_add_left _ _)

end trees

/-! ## Whole executions -/

/-- The instance may leave a wait: for the task `next`, or completed with `output`. -/
def Departs (π : Protocol Op Op.Resp γ) (hand : γ → WorkflowSnapshot → Prop) (g : γ)
    (next : Option TaskId) (s : WorkflowSnapshot) (output : Bytes) : Prop :=
  match next with
  | some taskId => π.allows g (.saveSnapshot (s.updatePosition (.atTask taskId)))
    ∧ ∀ r g', π.next g (.saveSnapshot (s.updatePosition (.atTask taskId))) r g' →
      hand g' (s.updatePosition (.atTask taskId))
  | none => π.allows g (.saveSnapshot (s.markCompleted output))

/-- What a protocol has to allow an execution before and after it walks the tree. `start`
relates the snapshot that has been loaded to the state of the protocol. -/
structure Resuming (π : Protocol Op Op.Resp γ) (cost : (o : Op) → o.Resp → ℕ)
    (priced : TaskId → Bool) (hand start : γ → WorkflowSnapshot → Prop) : Prop where
  fair : Fair priced cost
  guards : Guarded π
  quiet : ∀ {g s o}, start g s → o.isQuiet → π.allows g o ∧ ∀ r g', π.next g o r g' → g' = g
  load : ∀ g, π.allows g .loadSnapshot
  unparked : ∀ {g s}, start g s → s.isInProgress →
    ResumeParkedPosition.extract s = .notParked → hand g s
  fork : ∀ {g s wakeAt forkId}, start g s →
    ResumeParkedPosition.extract s = .fork wakeAt forkId → hand g s
  delay : ∀ {g s wakeAt delayId next}, start g s →
    ResumeParkedPosition.extract s = .delay wakeAt delayId next →
    Departs π hand g next s ((s.getTaskResultBytes delayId).getD [])
  signal : ∀ {g s signalId signalName wakeAt next} payload, start g s →
    ResumeParkedPosition.extract s = .signal signalId signalName wakeAt next →
    Departs π hand g next (s.markTaskCompleted signalId payload) payload
  complete : ∀ {g s} output, hand g s → π.allows g (.saveSnapshot (s.markCompleted output))
  fail : ∀ g (s : WorkflowSnapshot) e, π.allows g (.saveSnapshot (s.markFailed e))

section resuming

variable {start : γ → WorkflowSnapshot → Prop} (hr : Resuming π cost priced hand start)
include hr

/-- A cancelled or paused instance is loaded for its details. -/
theorem costs_checkParkedSignals {P : Standing γ} (nodeId : TaskId) :
    Costs π cost P (checkParkedSignals nodeId)
      (fun status g k s => status = none → P g k s) AnyEnd := by
  have hstop : ∀ (P' : Standing γ) (f : WorkflowSnapshot → WorkflowStatus),
      Costs π cost P' (do let t ← loadSnapshot; pure (some (f t)))
        (fun status g k s => status = none → P g k s) AnyEnd := by
    refine fun P' f => Costs.bind (Q := fun _ => AnyEnd) ?_ fun t => costs_pure fun _ _ _ _ => nofun
    exact costs_perform (hr.fair rfl) fun g k s _ => ⟨hr.load g, fun r _ _ => by cases r <;> trivial⟩
  refine (costs_checkAndCancel hr.guards hr.fair _).bind fun cancelled => ?_
  cases cancelled with
  | true => exact hstop _ _
  | false =>
    refine Costs.bind ((costs_checkAndPause hr.guards hr.fair).pre fun _ _ _ h => h rfl)
      fun paused => ?_
    cases paused with
    | true => exact hstop _ _
    | false => exact costs_pure fun _ _ _ h _ => h rfl

/-- The loaded snapshot has not been touched. -/
abbrev Untouched (start : γ → WorkflowSnapshot → Prop) (s : WorkflowSnapshot) (k : ℕ) : Standing γ :=
  fun g k' s' => k ≤ k' ∧ s' = s ∧ start g s

theorem Resuming.poised (s : WorkflowSnapshot) (k : ℕ) :
    Poised π cost priced (Untouched start s k) AnyEnd where
  fair := hr.fair
  err _ := trivial
  quiet hs ho := hr.quiet hs.2.2 ho

theorem costs_leave (next : Option TaskId) (output : Bytes) :
    Costs π cost (fun g k' s => k ≤ k' ∧ Departs π hand g next s output)
      (ResumeParkedPosition.leave next output)
      (fun status g k' s => status = none → Has hand k g k' s) AnyEnd := by
  intro g k' s hs
  cases next with
  | some taskId =>
    refine Prog.Spends.op (hr.fair rfl) hs.2.1 fun r g' hg' => ?_
    cases r with
    | ok _ => exact fun _ => ⟨hs.1, hs.2.2 _ g' hg'⟩
    | error _ => exact trivial
  | none =>
    refine Prog.Spends.op (hr.fair rfl) hs.2 fun r g' _ => ?_
    cases r with
    | ok _ => exact nofun
    | error _ => exact trivial

theorem costs_checkParkedPosition (nodeId : TaskId) (wakeAt : Time) :
    Costs π cost (Untouched start s k) (checkParkedPosition nodeId wakeAt)
      (fun status g k' s' => status = none → Untouched start s k g k' s') AnyEnd := by
  refine (costs_checkParkedSignals hr nodeId).bind fun status => ?_
  cases status with
  | some status => exact costs_pure fun _ _ _ _ => nofun
  | none =>
    refine Costs.bind ((keeps_utcNow (hr.poised s k)).pre fun _ _ _ h => h rfl) fun now => ?_
    split
    · exact costs_pure fun _ _ _ _ => nofun
    · exact costs_pure fun _ _ _ h _ => h

/-- **Resolving a parked position keeps to the protocol.** -/
theorem costs_resolve (hp : s.isInProgress) :
    Costs π cost (Untouched start s k) (ResumeParkedPosition.extract s).resolve
      (fun status g k' s' => status = none → Has hand k g k' s') AnyEnd := by
  cases hx : ResumeParkedPosition.extract s with
  | notParked =>
    refine costs_pure ?_
    rintro g k' _ ⟨hk, rfl, hs⟩ -
    exact ⟨hk, hr.unparked hs hp hx⟩
  | fork wakeAt forkId =>
    refine (costs_checkParkedPosition hr forkId wakeAt).mono (fun _ _ _ h => h) ?_ fun _ _ _ h => h
    intro status g k' s' h hnone
    obtain ⟨hk, rfl, hs⟩ := h hnone
    exact ⟨hk, hr.fork hs hx⟩
  | delay wakeAt delayId next =>
    refine (costs_checkParkedPosition hr delayId wakeAt).bind fun status => ?_
    cases status with
    | some status => exact costs_pure fun _ _ _ _ => nofun
    | none =>
      intro g k' s' h
      obtain ⟨hk, rfl, hs⟩ := h rfl
      exact costs_leave hr next _ g k' s' ⟨hk, hr.delay hs hx⟩
  | signal signalId signalName wakeAt next =>
    refine (costs_checkParkedSignals hr signalId).bind fun status => ?_
    cases status with
    | some status => exact costs_pure fun _ _ _ _ => nofun
    | none =>
      refine Costs.bind ((keeps_perform (hr.poised s k) (o := .consumeEvent signalName) rfl rfl
        _).pre fun _ _ _ h => h rfl) fun event => ?_
      cases event with
      | some payload =>
        rintro g k' s' ⟨hk, rfl, hs⟩
        have hread : ((s'.markTaskCompleted signalId payload).getTaskResultBytes
            signalId).getD [] = payload := by
          rw [WorkflowSnapshot.getTaskResultBytes_markTaskCompleted, if_pos ⟨hp, rfl⟩]
          rfl
        change (ResumeParkedPosition.leave next (((s'.markTaskCompleted signalId
          payload).getTaskResultBytes signalId).getD []) _).Spends cost π g k' _
        rw [hread]
        exact costs_leave hr next payload g k' _ ⟨hk, hr.signal payload hs hx⟩
      | none =>
        cases wakeAt with
        | none => exact costs_pure fun _ _ _ _ => nofun
        | some wt =>
          refine Costs.bind (keeps_utcNow (hr.poised s k)) fun now => ?_
          split
          · rintro g k' s' ⟨hk, rfl, hs⟩
            exact costs_leave hr next [] g k' _ ⟨hk, hr.signal [] hs hx⟩
          · exact costs_pure fun _ _ _ _ => nofun

/-- A loaded snapshot is made ready: then it is in hand. -/
theorem costs_prepareResume (definitionHash : DefinitionHash) :
    Costs π cost (Has start k) (prepareResume definitionHash)
      (fun outcome g k' s => ∀ input, outcome = .ready input → Has hand k g k' s) AnyEnd := by
  refine costs_get_bind fun s => ?_
  split
  · exact costs_throw fun _ _ _ _ => trivial
  · split
    · exact costs_pure fun _ _ _ _ => nofun
    · exact costs_pure fun _ _ _ _ => nofun
    · rename_i hnone
      have hp : s.isInProgress := by
        cases hst : s.state <;>
          simp_all [WorkflowSnapshot.asTerminalStatus, WorkflowSnapshot.isInProgress]
      refine Costs.bind ((costs_resolve (k := k) hr hp).pre ?_) fun parked => ?_
      · rintro g k' s' ⟨rfl, hk, hs⟩
        exact ⟨hk, rfl, hs⟩
      · cases parked with
        | some status => exact costs_pure fun _ _ _ _ => nofun
        | none =>
          refine keeps_get_bind fun s => ?_
          cases getResumeInput s with
          | error e => exact costs_throw fun _ _ _ _ => trivial
          | ok input => exact costs_pure fun _ _ _ h _ _ => h rfl

/-- The outcome of an execution is stored. -/
theorem costs_finalizeExecution {P : Standing γ} {result : Except RuntimeError Bytes}
    (hP : ∀ g k s output, P g k s → result = .ok output → hand g s) :
    Costs π cost P (finalizeExecution result) (fun _ => AnyEnd) AnyEnd := by
  have hfail : ∀ e, Costs π cost AnyEnd (do
      modify (·.markFailed e)
      let _ ← attempt saveSnapshot
      pure (.failed e, none) : Exec (WorkflowStatus × Option Bytes)) (fun _ => AnyEnd) AnyEnd := by
    refine fun e g k s _ => Prog.Spends.op (hr.fair rfl) (hr.fail g s e) fun r _ _ => ?_
    cases r <;> exact trivial
  have hdetails : ∀ details (f : Option String × Option String → WorkflowStatus × Option Bytes),
      Costs π cost AnyEnd (do let d ← reloadDetails details; pure (f d)) (fun _ => AnyEnd)
        AnyEnd := by
    refine fun details f => Costs.bind (Q := fun _ => AnyEnd) (fun g k s _ => ?_) fun d =>
      costs_pure fun _ _ _ _ => trivial
    refine Prog.Spends.op (hr.fair rfl) (hr.load g) fun r _ _ => ?_
    cases r <;> exact trivial
  cases result with
  | ok output =>
    refine fun g k s hs => Prog.Spends.op (hr.fair rfl)
      (hr.complete output (hP g k s output hs rfl)) fun r _ _ => ?_
    cases r <;> exact trivial
  | error e =>
    refine Costs.pre (P := AnyEnd) ?_ fun _ _ _ _ => trivial
    cases e with
    | workflow e =>
      cases e with
      | waiting wakeAt => exact fun _ _ _ _ => trivial
      | awaitingSignal signalId signalName wakeAt => exact fun _ _ _ _ => trivial
      | cancelled reason cancelledBy => exact hdetails _ _
      | paused reason pausedBy => exact hdetails _ _
      | _ => exact hfail _
    | _ => exact hfail _

variable {c : WorkflowContinuation} (hmain : ∀ input, Costs π cost (Has hand a)
  (executeMain ex codec c input) (fun _ => Has hand 0) AnyEnd)
include hmain

theorem costs_executeAndFinalize (input : Bytes) :
    Costs π cost (Has hand a) (executeAndFinalize ex codec c input) (fun _ => AnyEnd) AnyEnd :=
  (Costs.attempt (hmain input)).bind fun r => costs_finalizeExecution hr <| by
    rintro g k s output hs rfl
    exact hs.2

/-- **A resumed execution keeps to the protocol** and to its budget, if the main path does. -/
theorem resume_spends {g : γ} (hload : ∀ s g', π.next g .loadSnapshot (.ok s) g' → start g' s)
    (definitionHash : DefinitionHash) :
    (resume ex codec c definitionHash).Spends cost π g a fun _ _ _ => True := by
  refine Prog.Spends.op (hr.fair rfl) (hr.load g) fun r g' hg' => ?_
  cases r with
  | error e => exact trivial
  | ok s =>
    have hloaded : Costs π cost (Has start a) (resumeLoaded ex codec c definitionHash)
        (fun _ => AnyEnd) AnyEnd := by
      refine (costs_prepareResume hr definitionHash).bind fun outcome => ?_
      cases outcome with
      | ready input =>
        exact (costs_executeAndFinalize hr hmain input).pre fun _ _ _ h => h input rfl
      | _ => exact costs_pure fun _ _ _ _ => trivial
    exact Prog.Spends.bind ((hloaded g' a s ⟨le_rfl, hload s g' hg'⟩).mono fun _ _ _ _ => trivial)

/-- **A new execution keeps to the protocol** and to its budget, if the main path does. -/
theorem run_spends {g : γ} {instanceId : String} {definitionHash : DefinitionHash} {input : Bytes}
    (hs : hand g (initialSnapshot instanceId definitionHash input c.firstTaskHint))
    (hb : Bearing π priced hand) :
    (run ex codec c instanceId definitionHash input).Spends cost π g a fun _ _ _ => True := by
  have hrun : Costs π cost (Has hand a) (do saveSnapshot; executeAndFinalize ex codec c input)
      (fun _ => AnyEnd) AnyEnd :=
    Costs.bind (keeps_saveSnapshot (hb.lax hr.fair a).toPoised hb.savable) fun _ =>
      costs_executeAndFinalize hr hmain input
  exact Prog.Spends.bind ((hrun g a _ ⟨le_rfl, hs⟩).mono fun _ _ _ _ => trivial)

end resuming

/-! ## Saving -/

/-- What an execution saves satisfies `P`, if what it loads does. -/
def savingProtocol (P : WorkflowSnapshot → Prop) : Protocol Op Op.Resp Unit where
  allows _ o := match o with
    | .saveSnapshot s => P s
    | _ => True
  next _ o r _ := match o, r with
    | .loadSnapshot, .ok s => P s
    | _, _ => True

/-- Nothing costs anything there. -/
theorem fair_saving : Fair (fun _ => false) fun (o : Op) (_ : o.Resp) => 0 := fun _ _ => rfl

section saving

variable {P Q : WorkflowSnapshot → Prop} {g : Unit}

omit [Sha256] in
theorem guarded_saving : Guarded (savingProtocol P) :=
  ⟨fun _ _ => ⟨trivial, fun _ _ => rfl⟩, fun _ => ⟨trivial, fun _ _ => rfl⟩⟩

omit [Sha256] in
theorem quiet_saving {o : Op} (ho : o.isQuiet) : (savingProtocol P).allows g o := by
  cases o with
  | saveSnapshot s => cases ho
  | _ => trivial

omit [Sha256] in
/-- This protocol has only one state. -/
theorem bearing_saving (hQ : ∀ s, Q s → P s)
    (hdeadline : ∀ s d, Q s → Q { s with taskDeadline := d })
    (hretries : ∀ s r, Q s → Q { s with taskRetries := r })
    (hmark : ∀ s t output, Q s → Q (s.markTaskCompleted t output)) :
    Bearing (savingProtocol P) (fun _ => false) fun _ => Q where
  quiet _ ho := ⟨quiet_saving ho, fun _ _ _ => rfl⟩
  deadline d h := hdeadline _ d h
  mark t output h := hmark _ t output h
  record _ _ _ _ h := hretries _ _ h
  clear _ h := hretries _ _ h
  save h := ⟨hQ _ h, fun _ _ _ => h⟩

/-- The main path needs no budget. -/
theorem executeMain_saving {node inner : WorkflowContinuation → Prop} {π : Protocol Op Op.Resp γ}
    {copy : γ → WorkflowSnapshot → Prop} {c : WorkflowContinuation}
    (hc : Conduct π cost (fun _ => false) 0 ex node inner hand copy) (hn : node c)
    (codec : EnvelopeCodec) (input : Bytes) :
    Costs π cost (Has hand 0) (executeMain ex codec c input) (fun _ => Has hand 0) AnyEnd :=
  (executeMain_uses hc codec c hn input 0).drop (by simp [allowance])

end saving

end Sayiir
