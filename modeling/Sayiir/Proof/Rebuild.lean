import Sayiir.Core.Traversal
import Sayiir.Proof.Reconfigure

/-!
# Rebuilding a workflow from its registry

A workflow that was built with a registry can be stored without its functions and
put together again from the registry. That works exactly if every task and every
key function is registered and no duration loses anything in whole milliseconds.
All calls of the builder register what they add except for the collector of a
`branches` closure, so these branches are what may be missing.
-/

namespace Sayiir

open WorkflowBuilder

variable {r : RouteBuilder} {id : String} {get : String → Bool} {fields : TaskFields}
  {b : WorkflowBuilder} {n : WorkflowContinuation}

/-- The conversion to milliseconds keeps the duration. -/
def Duration.Whole (d : Duration) : Prop := d % 1000000 = 0 ∧ Duration.asMillis d < 2 ^ 64

theorem Duration.fromMillis_asMillisU64 (d : Duration) :
    Duration.fromMillis (Duration.asMillisU64 d) = d ↔ d.Whole := by
  unfold fromMillis asMillisU64 Whole asMillis
  constructor
  · intro h
    have hlt : d / 1000000 % 2 ^ 64 < 2 ^ 64 := Nat.mod_lt _ (by decide)
    have hdvd : d % 1000000 = 0 := by rw [← h, Nat.mul_mod_left]
    refine ⟨hdvd, ?_⟩
    have hdiv : d / 1000000 = d / 1000000 % 2 ^ 64 := by
      conv_lhs => rw [← h]
      exact Nat.mul_div_cancel _ (by decide)
    rw [hdiv]
    exact hlt
  · rintro ⟨hdvd, hlt⟩
    rw [Nat.mod_eq_of_lt hlt]
    exact Nat.div_mul_cancel (Nat.dvd_of_mod_eq_zero hdvd)

namespace SerializableContinuation

theorem taskIds_eq (c : SerializableContinuation) :
    c.taskIds = c.id :: c.children.flatMap taskIds := by
  have hnext : ∀ o : Option SerializableContinuation,
      taskIdsNext o = o.toList.flatMap taskIds := by
    intro o
    cases o <;> simp [taskIdsNext]
  have hbranches : ∀ cs : List SerializableContinuation,
      taskIdsBranches cs = cs.flatMap taskIds := by
    intro cs
    induction cs with
    | nil => rfl
    | cons c cs ih => rw [taskIdsBranches, ih, List.flatMap_cons]
  have hroutes : ∀ rs : List (String × SerializableContinuation),
      taskIdsRoutes rs = (rs.map Prod.snd).flatMap taskIds := by
    intro rs
    induction rs with
    | nil => rfl
    | cons r rs ih => rw [taskIdsRoutes, ih, List.map_cons, List.flatMap_cons]
  cases c <;> simp [taskIds, children, hnext, hbranches, hroutes, id]

end SerializableContinuation

namespace WorkflowContinuation

theorem toSerializableNext_eq (o : Option WorkflowContinuation) :
    toSerializableNext o = o.map toSerializable := by
  cases o <;> rfl

theorem toSerializableBranches_eq (cs : List WorkflowContinuation) :
    toSerializableBranches cs = cs.map toSerializable := by
  induction cs with
  | nil => rfl
  | cons c cs ih => rw [toSerializableBranches, ih, List.map_cons]

theorem toSerializableRoutes_eq (rs : List (String × WorkflowContinuation)) :
    toSerializableRoutes rs = rs.map fun r => (r.1, r.2.toSerializable) := by
  induction rs with
  | nil => rfl
  | cons r rs ih => rw [toSerializableRoutes, ih, List.map_cons]

theorem id_toSerializable (c : WorkflowContinuation) : c.toSerializable.id = c.id := by
  cases c <;> rfl

theorem children_toSerializable (c : WorkflowContinuation) :
    c.toSerializable.children = c.children.map toSerializable := by
  cases c <;> simp [toSerializable, SerializableContinuation.children, children,
    toSerializableNext_eq, toSerializableBranches_eq, toSerializableRoutes_eq, Function.comp_def,
    Option.toList_map]

theorem taskIds_toSerializable (c : WorkflowContinuation) :
    c.toSerializable.taskIds = c.taskIds := by
  induction c using children_induct with
  | step c ih =>
    rw [SerializableContinuation.taskIds_eq, taskIds_eq, children_toSerializable,
      id_toSerializable, List.flatMap_map]
    exact congrArg _ (List.flatMap_congr ih)

/-- The durations of the node are whole milliseconds. -/
def WholeDurations : WorkflowContinuation → Prop
  | .task _ fields _ => ∀ d ∈ fields.timeout, Duration.Whole d
  | .delay _ duration _ => Duration.Whole duration
  | .awaitSignal _ _ timeout _ => ∀ d ∈ timeout, Duration.Whole d
  | _ => True

/-- The implementations of the node are there and the registry has them. -/
def Registered (registry : TaskRegistry) : WorkflowContinuation → Prop
  | .task id fields _ => fields.func = true ∧ registry.contains id = true
  | .branch id keyFn _ _ _ => keyFn = true ∧ registry.contains (keyFnId id) = true
  | _ => True

/-- What the conversion needs of a node. -/
def Restorable (registry : TaskRegistry) (n : WorkflowContinuation) : Prop :=
  n.Registered registry ∧ n.WholeDurations

theorem restorable_bare (registry : TaskRegistry) (n : WorkflowContinuation) :
    n.bare.Restorable registry ↔ n.Restorable registry := by
  cases n <;> exact Iff.rfl

theorem map_fromMillis_iff (timeout : Option Duration) :
    (timeout.map Duration.asMillisU64).map Duration.fromMillis = timeout
      ↔ ∀ d ∈ timeout, Duration.Whole d := by
  cases timeout with
  | none => simp
  | some d => simp [← Duration.fromMillis_asMillisU64]

open SerializableContinuation (toRunnableUnchecked toRunnableNext toRunnableBranches
  toRunnableRoutes)

/-- The tree comes back from its serializable form. -/
def Returns (registry : TaskRegistry) (c : WorkflowContinuation) : Prop :=
  toRunnableUnchecked registry c.toSerializable = .ok c

section returns

variable {registry : TaskRegistry}

theorem toRunnableNext_iff (o : Option WorkflowContinuation) :
    toRunnableNext registry (o.map toSerializable) = .ok o
      ↔ ∀ n ∈ o.toList, n.Returns registry := by
  cases o with
  | none => simp [toRunnableNext, Pure.pure, Except.pure]
  | some n =>
    rw [Option.map_some, toRunnableNext, Option.toList_some, List.forall_mem_singleton, Returns]
    cases toRunnableUnchecked registry n.toSerializable <;> simp [Functor.map, Except.map]

theorem toRunnableBranches_iff (cs : List WorkflowContinuation) :
    toRunnableBranches registry (cs.map toSerializable) = .ok cs
      ↔ ∀ c ∈ cs, c.Returns registry := by
  induction cs with
  | nil => simp [toRunnableBranches, Pure.pure, Except.pure]
  | cons c cs ih =>
    rw [List.forall_mem_cons, ← ih, Returns]
    simp [toRunnableBranches, Except.bind_eq_ok_iff, Pure.pure, Except.pure]

theorem toRunnableRoutes_iff (rs : List (String × WorkflowContinuation)) :
    toRunnableRoutes registry (rs.map fun r => (r.1, r.2.toSerializable)) = .ok rs
      ↔ ∀ c ∈ rs.map Prod.snd, c.Returns registry := by
  induction rs with
  | nil => simp [toRunnableRoutes, Pure.pure, Except.pure]
  | cons r rs ih =>
    rw [List.map_cons, List.map_cons, List.forall_mem_cons, ← ih, Returns]
    obtain ⟨key, c⟩ := r
    simp [toRunnableRoutes, Except.bind_eq_ok_iff, Pure.pure, Except.pure]

/-- A node comes back with what is below it. -/
theorem returns_iff (c : WorkflowContinuation) :
    c.Returns registry ↔ c.Restorable registry ∧ ∀ d ∈ c.children, d.Returns registry := by
  rw [Returns]
  cases c with
  | task id fields next =>
    have hfields : (⟨true, (fields.timeout.map Duration.asMillisU64).map Duration.fromMillis,
        fields.retryPolicy, fields.version, fields.priority, fields.tags⟩ : TaskFields) = fields
          ↔ fields.func = true ∧ ∀ d ∈ fields.timeout, Duration.Whole d := by
      rw [← map_fromMillis_iff]
      cases fields
      simp [eq_comm]
    rw [toSerializable, toRunnableUnchecked, toSerializableNext_eq, children, ← toRunnableNext_iff]
    by_cases hreg : registry.contains id = true
    · simp [-Option.map_map, hreg, Except.bind_eq_ok_iff, Pure.pure, Except.pure, hfields,
        Restorable, Registered, WholeDurations, and_comm]
    · simp [hreg, Restorable, Registered]
  | delay id duration next =>
    rw [toSerializable, toRunnableUnchecked, toSerializableNext_eq, children, ← toRunnableNext_iff]
    simp [Except.bind_eq_ok_iff, Pure.pure, Except.pure, Restorable, Registered, WholeDurations,
      Duration.fromMillis_asMillisU64, and_comm]
  | awaitSignal id signalName timeout next =>
    rw [toSerializable, toRunnableUnchecked, toSerializableNext_eq, children, ← toRunnableNext_iff]
    simp [-Option.map_map, Except.bind_eq_ok_iff, Pure.pure, Except.pure, map_fromMillis_iff,
      Restorable, Registered, WholeDurations, and_comm]
  | fork id branches join =>
    rw [toSerializable, toRunnableUnchecked, toSerializableNext_eq, toSerializableBranches_eq,
      children, List.forall_mem_append, ← toRunnableNext_iff, ← toRunnableBranches_iff]
    simp [Except.bind_eq_ok_iff, Pure.pure, Except.pure, Restorable, Registered, WholeDurations,
      and_comm]
  | branch id keyFn branches default next =>
    rw [toSerializable, toRunnableUnchecked, toSerializableNext_eq, toSerializableNext_eq,
      toSerializableRoutes_eq, children, List.forall_mem_append, List.forall_mem_append,
      ← toRunnableNext_iff, ← toRunnableNext_iff, ← toRunnableRoutes_iff]
    by_cases hreg : registry.contains (keyFnId id) = true
    · simp [hreg, Except.bind_eq_ok_iff, Pure.pure, Except.pure, Restorable, Registered,
        WholeDurations]
      grind
    · simp [hreg, Restorable, Registered]
  | loop id body maxIterations onMax next | childWorkflow id body next =>
    rw [toSerializable, toRunnableUnchecked, toSerializableNext_eq, children, List.forall_mem_cons,
      ← toRunnableNext_iff, Returns]
    simp [Except.bind_eq_ok_iff, Pure.pure, Except.pure, Restorable, Registered, WholeDurations]

/-- **A tree comes back from its serializable form exactly if every node does.** -/
theorem toRunnableUnchecked_iff (c : WorkflowContinuation) :
    toRunnableUnchecked registry c.toSerializable = .ok c ↔ c.Every (Restorable registry) := by
  change c.Returns registry ↔ _
  induction c using children_induct with
  | step c ih =>
    rw [returns_iff, Every, subtrees_eq, List.forall_mem_cons, List.forall_mem_flatMap]
    exact and_congr_right fun _ => forall₂_congr ih

end returns

end WorkflowContinuation

namespace SerializableContinuation

open WorkflowContinuation (toSerializableNext toSerializableBranches toSerializableRoutes)

theorem children_induct {P : SerializableContinuation → Prop}
    (step : ∀ c : SerializableContinuation, (∀ d ∈ c.children, P d) → P c)
    (c : SerializableContinuation) : P c := by
  induction hn : c.taskIds.length using Nat.strong_induction_on generalizing c with
  | _ n ih =>
    refine step c fun d hd => ih _ ?_ d rfl
    rw [← hn, taskIds_eq c, List.length_cons, Nat.lt_succ_iff, List.flatMap_def]
    exact (List.sublist_flatten_of_mem (List.mem_map_of_mem hd)).length_le

/-- A node of the tree. -/
inductive Part : SerializableContinuation → SerializableContinuation → Prop
  | self (s : SerializableContinuation) : Part s s
  | child {n d s : SerializableContinuation} (hd : d ∈ s.children) (h : Part n d) : Part n s

theorem forall_part_iff {P : SerializableContinuation → Prop} {s : SerializableContinuation} :
    (∀ n, Part n s → P n) ↔ P s ∧ ∀ d ∈ s.children, ∀ n, Part n d → P n := by
  constructor
  · exact fun h => ⟨h s (.self s), fun d hd n hn => h n (.child hd hn)⟩
  · rintro ⟨hs, hbelow⟩ n hn
    cases hn with
    | self => exact hs
    | child hd hn => exact hbelow _ hd n hn

/-- The id under which the registry has the function of the node. -/
def functionId : SerializableContinuation → Option String
  | .task id .. => some id
  | .branch id .. => some (keyFnId id)
  | _ => none

/-- The milliseconds of the node are of type `u64`. -/
def Ranged : SerializableContinuation → Prop
  | .task _ timeoutMs .. => ∀ ms ∈ timeoutMs, ms < 2 ^ 64
  | .delay _ durationMs _ => durationMs < 2 ^ 64
  | .awaitSignal _ _ timeoutMs _ => ∀ ms ∈ timeoutMs, ms < 2 ^ 64
  | _ => True

section runnable

variable {registry : TaskRegistry}

/-- A node is converted if its function is there and what is below it is converted. -/
theorem exists_toRunnableUnchecked (s : SerializableContinuation) :
    (∃ c, s.toRunnableUnchecked registry = .ok c)
      ↔ (∀ f ∈ s.functionId, registry.contains f = true)
        ∧ ∀ d ∈ s.children, ∃ c, d.toRunnableUnchecked registry = .ok c := by
  have hnext : ∀ o : Option SerializableContinuation, (∃ o', toRunnableNext registry o = .ok o')
      ↔ ∀ d ∈ o.toList, ∃ c, d.toRunnableUnchecked registry = .ok c := by
    intro o
    cases o with
    | none => simp [toRunnableNext, Pure.pure, Except.pure]
    | some d =>
      rw [toRunnableNext, Option.toList_some, List.forall_mem_singleton]
      cases d.toRunnableUnchecked registry <;> simp [Functor.map, Except.map]
  have hbranches : ∀ cs : List SerializableContinuation,
      (∃ cs', toRunnableBranches registry cs = .ok cs')
        ↔ ∀ d ∈ cs, ∃ c, d.toRunnableUnchecked registry = .ok c := by
    intro cs
    induction cs with
    | nil => simp [toRunnableBranches, Pure.pure, Except.pure]
    | cons d cs ih =>
      rw [List.forall_mem_cons, ← ih]
      simp [toRunnableBranches, Except.bind_eq_ok_iff, Pure.pure, Except.pure]
  have hroutes : ∀ rs : List (String × SerializableContinuation),
      (∃ rs', toRunnableRoutes registry rs = .ok rs')
        ↔ ∀ d ∈ rs.map Prod.snd, ∃ c, d.toRunnableUnchecked registry = .ok c := by
    intro rs
    induction rs with
    | nil => simp [toRunnableRoutes, Pure.pure, Except.pure]
    | cons r rs ih =>
      rw [List.map_cons, List.forall_mem_cons, ← ih]
      simp [toRunnableRoutes, Except.bind_eq_ok_iff, Pure.pure, Except.pure]
  cases s with
  | task id timeoutMs retryPolicy version priority tags next =>
    rw [toRunnableUnchecked, children, ← hnext]
    by_cases hreg : registry.contains id = true <;>
      simp [hreg, functionId, Except.bind_eq_ok_iff, Pure.pure, Except.pure]
  | branch id branches default next =>
    rw [toRunnableUnchecked, children, List.forall_mem_append, List.forall_mem_append, ← hnext,
      ← hnext, ← hroutes]
    by_cases hreg : registry.contains (keyFnId id) = true
    · simp [hreg, functionId, Except.bind_eq_ok_iff, Pure.pure, Except.pure]
      grind
    · simp [hreg, functionId]
  | fork id branches join =>
    rw [toRunnableUnchecked, children, List.forall_mem_append, ← hnext, ← hbranches]
    simp [functionId, Except.bind_eq_ok_iff, Pure.pure, Except.pure, and_comm]
  | delay id durationMs next | awaitSignal id signalName timeoutMs next =>
    rw [toRunnableUnchecked, children, ← hnext]
    simp [functionId, Except.bind_eq_ok_iff, Pure.pure, Except.pure]
  | loop id body maxIterations onMax next | childWorkflow id body next =>
    rw [toRunnableUnchecked, children, List.forall_mem_cons, ← hnext]
    simp [functionId, Except.bind_eq_ok_iff, Pure.pure, Except.pure]

theorem toRunnableUnchecked_isOk_iff (s : SerializableContinuation) :
    (∃ c, s.toRunnableUnchecked registry = .ok c)
      ↔ ∀ n, Part n s → ∀ f ∈ n.functionId, registry.contains f = true := by
  induction s using children_induct with
  | step s ih =>
    rw [exists_toRunnableUnchecked, forall_part_iff]
    exact and_congr_right fun _ => forall₂_congr ih

theorem asMillisU64_fromMillis {ms : Nat} (h : ms < 2 ^ 64) :
    Duration.asMillisU64 (Duration.fromMillis ms) = ms := by
  unfold Duration.asMillisU64 Duration.asMillis Duration.fromMillis
  rw [Nat.mul_div_cancel _ (by decide), Nat.mod_eq_of_lt h]

theorem map_asMillisU64 {timeoutMs : Option Nat} (h : ∀ ms ∈ timeoutMs, ms < 2 ^ 64) :
    (timeoutMs.map Duration.fromMillis).map Duration.asMillisU64 = timeoutMs := by
  cases timeoutMs with
  | none => rfl
  | some ms => simp [asMillisU64_fromMillis (h ms rfl)]

/-- **What was converted has the serializable form that it was converted from.** -/
theorem toSerializable_of_toRunnableUnchecked (s : SerializableContinuation)
    (hs : ∀ n, Part n s → n.Ranged) (c : WorkflowContinuation)
    (h : s.toRunnableUnchecked registry = .ok c) : c.toSerializable = s := by
  induction s using children_induct generalizing c with
  | step s ih =>
    obtain ⟨hranged, hbelow⟩ := forall_part_iff.mp hs
    replace ih : ∀ d ∈ s.children, ∀ e, d.toRunnableUnchecked registry = .ok e →
        e.toSerializable = d := fun d hd => ih d hd (hbelow d hd)
    have hnext : ∀ o o', o.toList ⊆ s.children → toRunnableNext registry o = .ok o' →
        toSerializableNext o' = o := by
      intro o o' hsub ho
      cases o with
      | none => cases ho; rfl
      | some d =>
        rw [toRunnableNext] at ho
        cases hd : d.toRunnableUnchecked registry with
        | error e => rw [hd] at ho; cases ho
        | ok e =>
          rw [hd] at ho
          cases ho
          rw [toSerializableNext, ih d (hsub (by simp)) e hd]
    have hbranches : ∀ cs cs', cs ⊆ s.children → toRunnableBranches registry cs = .ok cs' →
        toSerializableBranches cs' = cs := by
      intro cs
      induction cs with
      | nil => rintro _ - ⟨⟩; rfl
      | cons d cs ihcs =>
        intro cs' hsub hcs
        rw [toRunnableBranches] at hcs
        obtain ⟨e, he, hcs⟩ := Except.bind_eq_ok_iff.mp hcs
        obtain ⟨es, hes, hcs⟩ := Except.bind_eq_ok_iff.mp hcs
        cases hcs
        rw [toSerializableBranches, ih d (hsub (by simp)) e he,
          ihcs es (fun x hx => hsub (by simp [hx])) hes]
    have hroutes : ∀ rs rs', rs.map Prod.snd ⊆ s.children →
        toRunnableRoutes registry rs = .ok rs' → toSerializableRoutes rs' = rs := by
      intro rs
      induction rs with
      | nil => rintro _ - ⟨⟩; rfl
      | cons r rs ihrs =>
        intro rs' hsub hrs
        rw [toRunnableRoutes] at hrs
        obtain ⟨e, he, hrs⟩ := Except.bind_eq_ok_iff.mp hrs
        obtain ⟨es, hes, hrs⟩ := Except.bind_eq_ok_iff.mp hrs
        cases hrs
        rw [toSerializableRoutes, ih _ (hsub (by simp)) e he,
          ihrs es (fun x hx => hsub (List.mem_cons_of_mem _ hx)) hes]
    cases s with
    | task id timeoutMs retryPolicy version priority tags next =>
      rw [toRunnableUnchecked] at h
      split at h
      · obtain ⟨next', hn, h⟩ := Except.bind_eq_ok_iff.mp h
        cases h
        rw [WorkflowContinuation.toSerializable, hnext _ _ (List.Subset.refl _) hn,
          map_asMillisU64 hranged]
      · cases h
    | delay id durationMs next =>
      rw [toRunnableUnchecked] at h
      obtain ⟨next', hn, h⟩ := Except.bind_eq_ok_iff.mp h
      cases h
      rw [WorkflowContinuation.toSerializable, hnext _ _ (List.Subset.refl _) hn,
        asMillisU64_fromMillis hranged]
    | awaitSignal id signalName timeoutMs next =>
      rw [toRunnableUnchecked] at h
      obtain ⟨next', hn, h⟩ := Except.bind_eq_ok_iff.mp h
      cases h
      rw [WorkflowContinuation.toSerializable, hnext _ _ (List.Subset.refl _) hn,
        map_asMillisU64 hranged]
    | fork id branches join =>
      rw [toRunnableUnchecked] at h
      obtain ⟨join', hj, h⟩ := Except.bind_eq_ok_iff.mp h
      obtain ⟨branches', hb, h⟩ := Except.bind_eq_ok_iff.mp h
      cases h
      rw [WorkflowContinuation.toSerializable, hnext _ _ (List.subset_append_right ..) hj,
        hbranches _ _ (List.subset_append_left ..) hb]
    | branch id branches default next =>
      rw [toRunnableUnchecked] at h
      split at h
      · obtain ⟨default', hd, h⟩ := Except.bind_eq_ok_iff.mp h
        obtain ⟨next', hn, h⟩ := Except.bind_eq_ok_iff.mp h
        obtain ⟨branches', hb, h⟩ := Except.bind_eq_ok_iff.mp h
        cases h
        rw [WorkflowContinuation.toSerializable, hroutes _ _ (List.subset_append_left ..) hb,
          hnext _ _ (fun x hx => by simp_all [children]) hd,
          hnext _ _ (fun x hx => by simp_all [children]) hn]
      · cases h
    | loop id body maxIterations onMax next | childWorkflow id body next =>
      rw [toRunnableUnchecked] at h
      obtain ⟨body', hb, h⟩ := Except.bind_eq_ok_iff.mp h
      obtain ⟨next', hn, h⟩ := Except.bind_eq_ok_iff.mp h
      cases h
      rw [WorkflowContinuation.toSerializable, ih _ (List.mem_cons_self ..) _ hb,
        hnext _ _ (List.subset_cons_self ..) hn]

theorem toRunnable_eq_ok_iff {s : SerializableContinuation} {c : WorkflowContinuation} :
    s.toRunnable registry = .ok c
      ↔ s.taskIds.Nodup ∧ s.toRunnableUnchecked registry = .ok c := by
  have hdup : s.findDuplicateId = none ↔ s.taskIds.Nodup := by
    simp [findDuplicateId, firstDuplicate_eq_none_iff]
  unfold toRunnable
  rw [← hdup]
  cases s.findDuplicateId <;> simp

end runnable

end SerializableContinuation

open SerializableContinuation in
/-- **Both round trips.** A serializable tree is converted exactly if its ids are distinct and
the registry has its functions, and what it is converted to has this serializable form. A tree
with whole milliseconds whose functions the registry has comes back exactly if its ids are
distinct. -/
theorem serializable_round_trips (registry : TaskRegistry) :
    (∀ s : SerializableContinuation,
      ((∃ c, s.toRunnable registry = .ok c) ↔ s.taskIds.Nodup
        ∧ ∀ n, Part n s → ∀ f ∈ n.functionId, registry.contains f = true)
      ∧ ((∀ n, Part n s → n.Ranged) →
        ∀ c, s.toRunnable registry = .ok c → c.toSerializable = s))
    ∧ ∀ c : WorkflowContinuation,
      c.Every (WorkflowContinuation.Registered registry) → c.Every WorkflowContinuation.WholeDurations →
        (c.toSerializable.toRunnable registry = .ok c ↔ c.toSerializable.taskIds.Nodup) := by
  refine ⟨fun s => ⟨?_, fun hs c hc => ?_⟩, fun c hregistered hwhole => ?_⟩
  · simp only [toRunnable_eq_ok_iff, exists_and_left, toRunnableUnchecked_isOk_iff]
  · exact toSerializable_of_toRunnableUnchecked s hs c (toRunnable_eq_ok_iff.mp hc).2
  · rw [toRunnable_eq_ok_iff, WorkflowContinuation.toRunnableUnchecked_iff]
    exact and_iff_left fun n hn => ⟨hregistered n hn, hwhole n hn⟩

/-- Two tasks of one name, with the function in the registry: the tree has a serializable form,
which is refused. -/
theorem duplicate_does_not_return :
    let c : WorkflowContinuation := .task "a" .plain (some (.task "a" .plain none))
    let registry : TaskRegistry := (∅ : TaskRegistry).insert "a" default
    c.Every (WorkflowContinuation.Registered registry) ∧ c.Every WorkflowContinuation.WholeDurations
      ∧ c.toSerializable.toRunnable registry = .error (.duplicateTaskId "a") := by
  intro c registry
  have hnodes : ∀ n ∈ c.subtrees, n = c ∨ n = .task "a" .plain none := by
    simp [c, WorkflowContinuation.subtrees, WorkflowContinuation.subtreesNext]
  refine ⟨fun n hn => ?_, fun n hn => ?_, rfl⟩
  · rcases hnodes n hn with rfl | rfl <;> exact ⟨rfl, rfl⟩
  · rcases hnodes n hn with rfl | rfl <;> exact fun d hd => by cases hd

namespace WorkflowContinuation

/-! ## What the builder registers -/

/-- The implementations of the node are there, and they are registered unless it is a
task that a `branches` closure collected. -/
def Entered (get : String → Bool) (collected : List String) : WorkflowContinuation → Prop
  | .task id fields _ => fields.func = true ∧ (get id = true ∨ id ∈ collected)
  | .branch id keyFn _ _ _ => keyFn = true ∧ get (keyFnId id) = true
  | _ => True

theorem blind_entered (get : String → Bool) (collected : List String) :
    Blind (Entered get collected) := by
  intro id fields fields' h
  simp only [Entered, h]

theorem Entered.mono {get' : String → Bool} {collected collected' : List String}
    (hget : ∀ id, get id = true → get' id = true) (hsub : collected ⊆ collected')
    (h : n.Entered get collected) : n.Entered get' collected' := by
  cases n with
  | task id fields next => exact ⟨h.1, h.2.imp (hget id) (@hsub id)⟩
  | branch id keyFn branches default next => exact ⟨h.1, hget _ h.2⟩
  | _ => trivial

end WorkflowContinuation

open WorkflowContinuation (Entered nodesNext appendNext)

namespace WorkflowBuilder

/-- A registered task is there. -/
theorem get_maybeRegister_self (h : b.registry.isSome = true) (id : String)
    (m : TaskMetadata) : (b.maybeRegister id m).get id = true := by
  rw [get_maybeRegister, h, Bool.true_and, decide_eq_true rfl, Bool.or_true]

end WorkflowBuilder

/-- The branches of a fork are registered, or they were collected. -/
theorem ForkCall.foldl_get {calls : List ForkCall} {f : ForkBuilder}
    (hregistry : f.parent.registry.isSome = true)
    (herrors : (calls.foldl (fun f call => call.run f) f).parent.errors = [])
    {call : ForkCall} (hcall : call ∈ calls) :
    (calls.foldl (fun f call => call.run f) f).parent.get call.id = true := by
  induction calls generalizing f with
  | nil => cases hcall
  | cons c calls ih =>
    rw [List.foldl_cons] at herrors ⊢
    rcases List.mem_cons.mp hcall with rfl | hcall
    · have hgrows := ForkCall.foldl_grows calls (call.run f)
      refine hgrows.get _ ?_
      cases call with
      | branch id => exact get_maybeRegister_self hregistry id default
      | branchTaskWith task =>
        exact get_maybeRegister_self hregistry task.taskId task.metadata
      | branchRegistered id =>
        have hnone := hgrows.errors_eq_nil herrors
        simp only [run, ForkBuilder.branchRegistered] at hnone ⊢
        split at hnone
        case isTrue hget => rw [if_pos hget]; exact hget
        case isFalse => simp [pushErrors] at hnone
    · exact ih ((c.grows f).registry.trans hregistry) herrors hcall

/-- A sub-builder registers its tasks. -/
theorem SubCall.foldl_entered (calls : List SubCall) {s : SubBuilder}
    (hregistry : s.parent.registry.isSome = true)
    (hs : ∀ n ∈ nodesNext s.continuation, n.Entered (s.parent.get ·) []) :
    ∀ n ∈ nodesNext (calls.foldl (fun s call => call.run s) s).continuation,
      n.Entered ((calls.foldl (fun s call => call.run s) s).parent.get ·) [] := by
  induction calls generalizing s with
  | nil => exact hs
  | cons call calls ih =>
    rw [List.foldl_cons]
    have hgrows := SubCall.foldl_grows [call] s
    refine ih (hgrows.registry.trans hregistry) ?_
    -- the nodes before the call stay registered, and its own is
    have happend : ∀ k, k.Entered ((call.run s).parent.get ·) [] → k.nodes = [k] →
        ∀ n ∈ nodesNext (some (appendNext k s.continuation)),
          n.Entered ((call.run s).parent.get ·) [] := by
      intro k hk hnodes n hn
      rw [show nodesNext (some (appendNext k s.continuation)) = _ from
        WorkflowContinuation.nodes_appendNext k s.continuation, List.mem_append, hnodes,
        List.mem_singleton] at hn
      rcases hn with hn | rfl
      · exact (hs n hn).mono hgrows.get (List.Subset.refl _)
      · exact hk
    cases call with
    | thenFn id =>
      exact happend _ ⟨rfl, .inl (get_maybeRegister_self hregistry id default)⟩ rfl
    | delay id duration => exact happend _ trivial rfl
    | waitForSignal id signalName timeout => exact happend _ trivial rfl

namespace RouteBuilder

/-- The chains of the route. -/
def chains (r : RouteBuilder) : List WorkflowContinuation :=
  r.namedBranches.map Prod.snd ++ r.defaultBranch.toList

theorem mem_chains_insert {key : Option String} {c k : WorkflowContinuation}
    (h : k ∈ (r.insert key c).chains) : k = c ∨ k ∈ r.chains := by
  cases key with
  | none =>
    rcases List.mem_append.mp h with h | h
    · exact .inr (List.mem_append_left _ h)
    · exact .inl (by simpa [insert] using h)
  | some key =>
    rcases List.mem_append.mp h with h | h
    · obtain ⟨r', hr', rfl⟩ := List.mem_map.mp h
      rcases List.mem_append.mp hr' with hr' | hr'
      · exact .inr (List.mem_append_left _ (List.mem_map_of_mem (List.mem_filter.mp hr').1))
      · exact .inl (congrArg Prod.snd (List.mem_singleton.mp hr'))
    · exact .inr (List.mem_append_right _ h)

theorem mem_nodes_node (h : n ∈ r.node.nodes) :
    n = .branch r.branchId r.keyFn [] none none ∨ ∃ c ∈ r.chains, n ∈ c.nodes := by
  obtain ⟨k, hk, rfl⟩ := List.mem_map.mp h
  simp only [node, WorkflowContinuation.subtrees, List.mem_cons, List.mem_append,
    WorkflowContinuation.mem_subtreesRoutes, WorkflowContinuation.mem_subtreesNext] at hk
  rcases hk with rfl | ⟨x, hx, hk⟩ | ⟨c, hc, hk⟩ | ⟨c, hc, -⟩
  · exact .inl rfl
  · exact .inr ⟨x.2, List.mem_append_left _ (List.mem_map_of_mem hx), List.mem_map_of_mem hk⟩
  · exact .inr ⟨c, List.mem_append_right _ (by simp [hc]), List.mem_map_of_mem hk⟩
  · cases hc

/-- Every node of every chain is registered. -/
def ChainsEntered (r : RouteBuilder) : Prop :=
  ∀ c ∈ r.chains, ∀ n ∈ c.nodes, n.Entered (r.parent.get ·) []

theorem ChainsEntered.branch (h : r.ChainsEntered)
    (hregistry : r.parent.registry.isSome = true) (key : Option String) (calls : List SubCall) :
    (r.branch key calls).ChainsEntered := by
  have hsub := SubCall.foldl_entered calls (s := ⟨r.parent, none⟩) hregistry (by
    intro n hn
    cases hn)
  have hgrows := SubCall.foldl_grows calls ⟨r.parent, none⟩
  have hold : ∀ c ∈ r.chains, ∀ n ∈ c.nodes, n.Entered
      ((calls.foldl (fun s call => SubCall.run call s) ⟨r.parent, none⟩).parent.get ·) [] :=
    fun c hc n hn => (h c hc n hn).mono hgrows.get (List.Subset.refl _)
  intro c hc n hn
  simp only [RouteBuilder.branch] at hc ⊢
  split at hc
  case h_1 k hk =>
    rw [hk] at hsub
    rw [parent_insert]
    rcases mem_chains_insert hc with rfl | hc
    · exact hsub n hn
    · exact hold c hc n hn
  case h_2 => exact hold c hc n hn

theorem buildChainFromRegistry_entered {ids : List String} (h : ∀ id ∈ ids, b.get id = true) :
    ∀ n ∈ nodesNext (buildChainFromRegistry b ids), n.Entered (b.get ·) [] := by
  induction ids with
  | nil => intro n hn; cases hn
  | cons id ids ih =>
    intro n hn
    rcases List.mem_cons.mp hn with rfl | hn
    · exact ⟨h id List.mem_cons_self, .inl (h id List.mem_cons_self)⟩
    · exact ih (fun x hx => h x (List.mem_cons_of_mem _ hx)) n hn

theorem ChainsEntered.branchRegistered (h : r.ChainsEntered)
    (key : Option String) (taskIds : List String) :
    (r.branchRegistered key taskIds).ChainsEntered := by
  intro c hc n hn
  simp only [RouteBuilder.branchRegistered] at hc ⊢
  split at hc
  case h_2 => exact h c hc n hn
  case h_1 k hk =>
    split at hc
    case isFalse hmissing =>
      rw [if_neg hmissing]
      exact h c hc n hn
    case isTrue hmissing =>
      rw [if_pos hmissing, parent_insert]
      rcases mem_chains_insert hc with rfl | hc
      · refine buildChainFromRegistry_entered (fun id hid => ?_) n (by rw [hk]; exact hn)
        have hnil := List.isEmpty_iff.mp hmissing
        simpa using List.filter_eq_nil_iff.mp hnil id (List.mem_reverse.mpr hid)
      · exact h c hc n hn

/-- The id and the key function of a route are set when it is opened. -/
theorem head_insert (key : Option String) (c : WorkflowContinuation) (r : RouteBuilder) :
    (r.insert key c).branchId = r.branchId ∧ (r.insert key c).keyFn = r.keyFn := by
  cases key <;> exact ⟨rfl, rfl⟩

theorem head_branch (key : Option String) (calls : List SubCall) (r : RouteBuilder) :
    (r.branch key calls).branchId = r.branchId ∧ (r.branch key calls).keyFn = r.keyFn := by
  simp only [branch]
  split
  · exact head_insert _ _ _
  · exact ⟨rfl, rfl⟩

theorem head_branchRegistered (key : Option String) (taskIds : List String) (r : RouteBuilder) :
    (r.branchRegistered key taskIds).branchId = r.branchId
      ∧ (r.branchRegistered key taskIds).keyFn = r.keyFn := by
  simp only [branchRegistered]
  split
  · split
    · exact head_insert _ _ _
    · exact ⟨rfl, rfl⟩
  · exact ⟨rfl, rfl⟩

/-- The node of a route is registered if its key function and its chains are. -/
theorem ChainsEntered.node (h : r.ChainsEntered) (hkeyFn : r.keyFn = true)
    (hget : r.parent.get (keyFnId r.branchId) = true) :
    ∀ n ∈ r.node.nodes, n.Entered (r.parent.get ·) [] := by
  intro n hn
  rcases mem_nodes_node hn with rfl | ⟨c, hc, hn⟩
  · exact ⟨hkeyFn, hget⟩
  · exact h c hc n hn

end RouteBuilder

theorem routeBuilder_entered (branches : List (Option String × List SubCall))
    (hregistry : b.registry.isSome = true) :
    ∀ n ∈ (routeBuilder branches b).node.nodes,
      n.Entered ((routeBuilder branches b).parent.get ·) [] := by
  have hfold : ∀ (branches : List (Option String × List SubCall)) (r : RouteBuilder),
      r.parent.registry.isSome = true → r.ChainsEntered → r.keyFn = true →
        r.parent.get (keyFnId r.branchId) = true →
          let r' := branches.foldl (fun r call => r.branch call.1 call.2) r
          r'.ChainsEntered ∧ r'.keyFn = true ∧ r'.parent.get (keyFnId r'.branchId) = true := by
    intro branches
    induction branches with
    | nil => exact fun r _ hchains hkeyFn hget => ⟨hchains, hkeyFn, hget⟩
    | cons call branches ih =>
      intro r hreg hchains hkeyFn hget
      have hgrows := r.branch_grows call.1 call.2
      have hhead := r.head_branch call.1 call.2
      refine ih _ (hgrows.registry.trans hreg) (hchains.branch hreg call.1 call.2)
        (hhead.2.trans hkeyFn) ?_
      rw [hhead.1]
      exact hgrows.get _ hget
  have hopen : (RouteBuilder.ofRoute b).parent.get (keyFnId (RouteBuilder.ofRoute b).branchId)
      = true :=
    get_maybeRegister_self
      (b := { b with branchCounter := b.branchCounter + 1 }) hregistry _ default
  obtain ⟨hchains, hkeyFn, hget⟩ := hfold branches (.ofRoute b)
    (Option.isSome_map.trans hregistry) (fun c hc => by cases hc) rfl hopen
  exact hchains.node hkeyFn hget

theorem routeRegisteredBuilder_entered {branches : List (Option String × List String)}
    (herrors : (routeRegisteredBuilder id branches b).parent.errors = []) :
    ∀ n ∈ (routeRegisteredBuilder id branches b).node.nodes,
      n.Entered ((routeRegisteredBuilder id branches b).parent.get ·) [] := by
  have hfold : ∀ (branches : List (Option String × List String)) (r : RouteBuilder),
      r.ChainsEntered →
        let r' := branches.foldl (fun r call => r.branchRegistered call.1 call.2) r
        WorkflowBuilder.Grows r.parent r'.parent ∧ r'.ChainsEntered ∧ r'.branchId = r.branchId
          ∧ r'.keyFn = r.keyFn := by
    intro branches
    induction branches with
    | nil => exact fun r hchains => ⟨.refl _, hchains, rfl, rfl⟩
    | cons call branches ih =>
      intro r hchains
      have hhead := r.head_branchRegistered call.1 call.2
      obtain ⟨hgrows, hchains', hid, hkeyFn⟩ := ih _ (hchains.branchRegistered call.1 call.2)
      exact ⟨(r.branchRegistered_grows call.1 call.2).trans hgrows, hchains', hid.trans hhead.1,
        hkeyFn.trans hhead.2⟩
  obtain ⟨hgrows, hchains, hid, hkeyFn⟩ := hfold branches (.ofRouteRegistered id b)
    (fun c hc => by cases hc)
  have hget : b.get (keyFnId id) = true :=
    get_of_require (hgrows.errors_eq_nil herrors)
  refine hchains.node (hkeyFn.trans hget) ?_
  rw [hid]
  exact hgrows.get _ hget

/-! ## Steps -/

/-- The ids that a step adds without registering them: those collected in a `branches`
closure, and those that the builder of an inlined child left out. -/
def Step.collected (left : SerializableWorkflow → List String) : Step → List String
  | join collected _ _ | joinRegistered collected _ _ => collected.map CollectorCall.id
  | thenSerializableFlow child => left child
  | _ => []

/-- The name of a task node. -/
def WorkflowContinuation.taskName (n : WorkflowContinuation) : Option String :=
  n.asTask.map Prod.fst

theorem WorkflowContinuation.blind_taskName : Blind taskName := fun _ _ _ _ => rfl

/-- What is known of a workflow whose builder left these ids out. -/
structure Omits (get : String → Bool) (nodes : List WorkflowContinuation)
    (left : List String) : Prop where
  entered : ∀ n ∈ nodes, n.Entered get left
  present : ∀ id ∈ left, some id ∈ nodes.map WorkflowContinuation.taskName

namespace Step

variable {left : SerializableWorkflow → List String} {b : WorkflowBuilder}

theorem omits_fork {collected : List CollectorCall} {calls : List ForkCall}
    {fields : String → TaskFields} {joinId : String} {joinFields : TaskFields}
    (hregistry : b.registry.isSome = true)
    (herrors : (forkBuilder collected calls b).parent.errors = [])
    (hget : ∀ id, (forkBuilder collected calls b).parent.get id = true → get id = true)
    (hfields : ∀ id, (fields id).func = true) (hfunc : joinFields.func = true)
    (hjoin : get joinId = true) :
    Omits get ((forkBuilder collected calls b).node fields joinId joinFields).nodes
      (collected.map CollectorCall.id) := by
  rw [ForkBuilder.nodes_node, forkBuilder_branches herrors]
  constructor
  · intro n hn
    rcases List.mem_cons.mp hn with rfl | hn
    · trivial
    · rcases List.mem_append.mp hn with hn | hn
      · obtain ⟨id, hid, rfl⟩ := List.mem_map.mp hn
        refine ⟨hfields id, ?_⟩
        rcases List.mem_append.mp hid with hid | hid
        · exact .inr hid
        · obtain ⟨call, hcall, rfl⟩ := List.mem_map.mp hid
          exact .inl (hget _ (ForkCall.foldl_get hregistry herrors hcall))
      · obtain rfl := List.mem_singleton.mp hn
        exact ⟨hfunc, .inl hjoin⟩
  · intro id hid
    refine List.mem_map.mpr ⟨.task id (fields id) none, ?_, rfl⟩
    refine List.mem_cons_of_mem _ (List.mem_append_left _ (List.mem_map.mpr ⟨id, ?_, rfl⟩))
    exact List.mem_append_left _ hid

theorem omits_of_task
    {nodes : List WorkflowContinuation} (hfunc : fields.func = true) (hget : get id = true)
    (hnodes : ∀ n ∈ nodes, n = .task id fields none ∨ n.Entered get []) :
    Omits get nodes [] := by
  refine ⟨fun n hn => ?_, fun id hid => by cases hid⟩
  rcases hnodes n hn with rfl | hn
  · exact ⟨hfunc, .inl hget⟩
  · exact hn

/-- The body is the only task of a loop. -/
theorem mem_nodes_loopNode {loopId : String} {maxIterations : Nat} {onMax : MaxIterationsPolicy}
    (h : n ∈ (loopNode loopId id fields maxIterations onMax).nodes) :
    n = .task id fields none ∨ n.Entered get [] := by
  rcases List.mem_cons.mp h with rfl | h
  · exact .inr trivial
  · exact .inl (List.mem_singleton.mp h)

theorem get_merge {child : SerializableWorkflow} (hregistry : b.registry.isSome = true)
    (h : child.registry.contains id = true) : (b.thenSerializableFlow child).get id = true := by
  obtain ⟨r, hr⟩ := Option.isSome_iff_exists.mp hregistry
  have hget : (b.thenSerializableFlow child).get id = (r.merge child.registry).contains id := by
    simp [WorkflowBuilder.get, WorkflowBuilder.thenSerializableFlow, WorkflowBuilder.thenFlow,
      WorkflowBuilder.extend, hr]
  rw [hget]
  exact AList.lookup_isSome.mpr (AList.mem_union.mpr (.inr (AList.lookup_isSome.mp h)))

/-- **A step registers what it adds**, except for what a closure collects. -/
theorem omits {step : Step} (hregistry : b.registry.isSome = true)
    (herrors : (step.run b).errors = []) (hflow : ∀ child, step ≠ .thenFlow child)
    (hchild : ∀ child, step = .thenSerializableFlow child →
      Omits (child.registry.contains ·) child.continuation.nodes (left child)) :
    Omits ((step.run b).get ·) (step.node b).nodes (step.collected left) := by
  cases step with
  | thenFn id =>
    exact omits_of_task rfl (get_maybeRegister_self hregistry id default)
      fun n hn => .inl (List.mem_singleton.mp hn)
  | thenTaskWith task =>
    exact omits_of_task rfl (get_maybeRegister_self hregistry _ _)
      fun n hn => .inl (List.mem_singleton.mp hn)
  | thenRegistered id =>
    have hget : b.get id = true := get_of_require herrors
    exact omits_of_task hget hget fun n hn => .inl (List.mem_singleton.mp hn)
  | loopTaskWithPolicy id maxIterations onMax =>
    exact omits_of_task rfl
      (get_maybeRegister_self (b := b.requireIterations id maxIterations)
        hregistry id default) fun n hn => mem_nodes_loopNode hn
  | loopTaskStructWithPolicy task maxIterations onMax =>
    exact omits_of_task rfl
      (get_maybeRegister_self (b := b.requireIterations task.taskId maxIterations)
        hregistry task.taskId task.metadata) fun n hn => mem_nodes_loopNode hn
  | loopTaskRegistered id maxIterations onMax =>
    have hget : b.get id = true :=
      get_of_require (b := b.requireIterations id maxIterations) herrors
    exact omits_of_task hget hget fun n hn => mem_nodes_loopNode hn
  | delay id duration =>
    refine ⟨fun n hn => ?_, fun id hid => by cases hid⟩
    obtain rfl := List.mem_singleton.mp hn
    trivial
  | waitForSignal id signalName timeout =>
    refine ⟨fun n hn => ?_, fun id hid => by cases hid⟩
    obtain rfl := List.mem_singleton.mp hn
    trivial
  | thenFlow child => exact absurd rfl (hflow child)
  | thenSerializableFlow child =>
    have homits := hchild child rfl
    have hnodes : ((thenSerializableFlow child).node b).nodes
        = .childWorkflow s!"child_{b.childCounter}" (.delay s!"child_{b.childCounter}" 0 none) none
          :: child.continuation.nodes := by
      simp [node, WorkflowContinuation.nodes, WorkflowContinuation.subtrees,
        WorkflowContinuation.subtreesNext, WorkflowContinuation.bare]
    rw [hnodes]
    constructor
    · intro n hn
      rcases List.mem_cons.mp hn with rfl | hn
      · trivial
      · exact (homits.entered n hn).mono (fun id hid => get_merge hregistry hid)
          (List.Subset.refl _)
    · intro id hid
      exact List.mem_cons_of_mem _ (homits.present id hid)
  | join collected calls id =>
    have hparent : (forkBuilder collected calls b).parent.errors = [] := herrors
    have hgrows := grows_maybeRegister id default
      (forkBuilder collected calls b).parent
    have hreg := (forkBuilder_grows collected calls b).registry.trans hregistry
    exact omits_fork hregistry hparent hgrows.get (fun _ => rfl) rfl
      (get_maybeRegister_self hreg id default)
  | joinRegistered collected calls id =>
    have hget : (forkBuilder collected calls b).parent.get id = true :=
      get_of_require herrors
    have hparent : (forkBuilder collected calls b).parent.errors = [] :=
      (grows_pushErrors _ _).errors_eq_nil herrors
    exact omits_fork hregistry hparent (fun _ h => h) (fun _ => rfl) hget hget
  | route allKeys branches =>
    exact ⟨routeBuilder_entered branches hregistry, fun id hid => by cases hid⟩
  | routeRegistered id branches =>
    exact ⟨routeRegisteredBuilder_entered herrors, fun id hid => by cases hid⟩

end Step

/-! ## Stages -/

section stages

variable [Sha256] {left : SerializableWorkflow → List String}

theorem WorkflowBuilder.get_withMetadata (m : TaskMetadata) (b : WorkflowBuilder) (id : String) :
    (b.withMetadata m).get id = b.get id := by
  have hset : ∀ (last : String) (r : TaskRegistry),
      (TaskRegistry.setMetadata last m r).contains id = r.contains id := by
    intro last r
    unfold TaskRegistry.setMetadata TaskRegistry.contains
    split
    case isFalse => rfl
    case isTrue hlast =>
      by_cases hid : id = last
      · subst hid
        simp [hlast]
      · rw [AList.lookup_insert_ne hid]
  unfold withMetadata get
  split
  · rfl
  · cases b.registry with
    | none => rfl
    | some r => exact hset _ r

theorem Stage.run_get (s : Stage) (b : WorkflowBuilder) (id : String) :
    (s.run b).get id = (s.step.run b).get id := by
  have hfold : ∀ (ms : List TaskMetadata) (b : WorkflowBuilder),
      (ms.foldl (fun b m => b.withMetadata m) b).get id = b.get id := by
    intro ms
    induction ms with
    | nil => exact fun b => rfl
    | cons m ms ih => exact fun b => (ih _).trans (b.get_withMetadata m id)
  exact hfold s.metadata (s.step.run b)

theorem Stage.map_nodes_run {α : Type} {g : WorkflowContinuation → α}
    (hg : WorkflowContinuation.Blind g) (s : Stage) (b : WorkflowBuilder) :
    (nodesNext (s.run b).continuation).map g
      = (nodesNext b.continuation).map g ++ (s.step.node b).nodes.map g := by
  rw [Stage.run, map_nodesNext_foldl_withMetadata hg, Step.run_continuation,
    ← List.map_append, ← WorkflowContinuation.nodes_appendNext]
  rfl

theorem Stage.run_registry (s : Stage) (b : WorkflowBuilder) :
    (s.run b).registry.isSome = b.registry.isSome := by
  have hfold : ∀ (ms : List TaskMetadata) (b : WorkflowBuilder),
      (ms.foldl (fun b m => b.withMetadata m) b).registry.isSome = b.registry.isSome := by
    intro ms
    induction ms with
    | nil => exact fun b => rfl
    | cons m ms ih =>
      intro b
      have hstep : (b.withMetadata m).registry.isSome = b.registry.isSome := by
        unfold withMetadata
        split
        · rfl
        · exact Option.isSome_map
      exact (ih _).trans hstep
  exact (hfold s.metadata (s.step.run b)).trans (s.step.run_registry b)

/-- The children that a sequence of calls inlines satisfy what is said of them. -/
def Inlines (Q : SerializableWorkflow → Prop) (stages : List Stage) : Prop :=
  ∀ s ∈ stages, (∀ child, s.step ≠ .thenFlow child)
    ∧ ∀ child, s.step = .thenSerializableFlow child → Q child

/-- One stage. -/
theorem Stage.omits {s : Stage} {before : List String}
    (hregistry : b.registry.isSome = true) (herrors : (s.run b).errors = [])
    (hflow : ∀ child, s.step ≠ .thenFlow child)
    (hchild : ∀ child, s.step = .thenSerializableFlow child →
      Omits (child.registry.contains ·) child.continuation.nodes (left child))
    (h : Omits (b.get ·) (nodesNext b.continuation) before) :
    Omits ((s.run b).get ·) (nodesNext (s.run b).continuation)
      (before ++ s.step.collected left) := by
  have hstep := Step.omits hregistry (s.run_errors b ▸ herrors) hflow hchild
  constructor
  · -- the view that says whether a node is registered does not see the metadata
    have hmap := s.map_nodes_run (WorkflowContinuation.blind_entered ((s.run b).get ·)
      (before ++ s.step.collected left)) b
    rw [← List.map_append] at hmap
    have hall : ∀ p ∈ (nodesNext b.continuation ++ (s.step.node b).nodes).map
        (Entered ((s.run b).get ·) (before ++ s.step.collected left)), p := by
      rw [List.forall_mem_map, List.forall_mem_append]
      refine ⟨fun n hn => ?_, fun n hn => ?_⟩
      · refine (h.entered n hn).mono (fun id hid => ?_) (List.subset_append_left _ _)
        exact (s.run_get b id).trans (s.step.run_get hid)
      · refine (hstep.entered n hn).mono (fun id hid => ?_) (List.subset_append_right _ _)
        exact (s.run_get b id).trans hid
    rw [← hmap, List.forall_mem_map] at hall
    exact hall
  · intro id hid
    rw [s.map_nodes_run WorkflowContinuation.blind_taskName b]
    rcases List.mem_append.mp hid with hid | hid
    · exact List.mem_append_left _ (h.present id hid)
    · exact List.mem_append_right _ (hstep.present id hid)

/-- **A sequence of calls registers all it adds**, except for what closures collect. -/
theorem WorkflowBuilder.omits_calls {stages : List Stage}
    {before : List String} (hregistry : b.registry.isSome = true)
    (herrors : (b.calls stages).errors = []) (hchildren : Inlines (fun child =>
      Omits (child.registry.contains ·) child.continuation.nodes (left child)) stages)
    (h : Omits (b.get ·) (nodesNext b.continuation) before) :
    Omits ((b.calls stages).get ·) (nodesNext (b.calls stages).continuation)
      (before ++ stages.flatMap fun s => s.step.collected left) := by
  induction stages generalizing b before with
  | nil =>
    rw [List.flatMap_nil, List.append_nil]
    exact h
  | cons s stages ih =>
    have hnone : (s.run b).errors = [] := Stage.run_errors_eq_nil herrors
    have hs := hchildren s List.mem_cons_self
    have hstage := Stage.omits hregistry hnone hs.1 hs.2 h
    have hrest := ih ((s.run_registry b).trans hregistry) herrors
      (fun s' hs' => hchildren s' (List.mem_cons_of_mem _ hs')) hstage
    rw [List.append_assoc] at hrest
    exact hrest

/-! ## Workflows -/

/-- The workflows that sequences of calls build, with the ids of the branches that were
added in a `branches` closure, also in the workflows they inline. The children come
from builders of their own. -/
inductive Assembled : SerializableWorkflow → List String → Prop
  | build (registry : TaskRegistry) (stages : List Stage) (w : SerializableWorkflow)
      (left : SerializableWorkflow → List String)
      (hflows : ∀ s ∈ stages, ∀ child, s.step ≠ .thenFlow child)
      (hchildren : ∀ s ∈ stages, ∀ child, s.step = .thenSerializableFlow child →
        Assembled child (left child))
      (hbuild : ((new (some registry)).calls stages).build
        = .ok (w.continuation, some w.registry)) :
      Assembled w (stages.flatMap fun s => s.step.collected left)

theorem Assembled.omits {w : SerializableWorkflow} {collected : List String}
    (h : Assembled w collected) :
    Omits (w.registry.contains ·) w.continuation.nodes collected
      ∧ w.continuation.taskIds.Nodup := by
  induction h with
  | build registry stages w left hflows _ hbuild ih =>
    obtain ⟨hc, hreg, herrors, hnodup⟩ := build_eq_ok hbuild
    have hnew : Omits ((new (some registry)).get ·) (nodesNext none) [] :=
      ⟨fun n hn => (List.not_mem_nil hn).elim, fun id hid => (List.not_mem_nil hid).elim⟩
    have homits := omits_calls (b := .new (some registry)) rfl herrors
      (fun s hs => ⟨hflows s hs, fun child hchild => (ih s hs child hchild).1⟩) hnew
    have hget : (fun id => ((new (some registry)).calls stages).get id)
        = fun id => w.registry.contains id := by
      funext id
      simp [WorkflowBuilder.get, hreg]
    rw [hc, hget, List.nil_append] at homits
    exact ⟨homits, hnodup⟩

/-- **Rebuilding.** A workflow comes back from its serializable form and its own
registry exactly if the branches collected in closures are registered and all
durations are whole milliseconds. -/
theorem to_runnable_restores_iff {w : SerializableWorkflow} {collected : List String}
    (h : Assembled w collected) :
    w.continuation.toSerializable.toRunnable w.registry = .ok w.continuation
      ↔ (∀ id ∈ collected, w.registry.contains id = true)
        ∧ ∀ n ∈ w.continuation.nodes, n.WholeDurations := by
  obtain ⟨homits, hnodup⟩ := h.omits
  have hnodes : w.continuation.Every (WorkflowContinuation.Restorable w.registry)
      ↔ ∀ n ∈ w.continuation.nodes, n.Restorable w.registry := by
    rw [WorkflowContinuation.nodes, List.forall_mem_map]
    exact forall₂_congr fun n _ => (n.restorable_bare w.registry).symm
  rw [SerializableContinuation.toRunnable_eq_ok_iff, WorkflowContinuation.taskIds_toSerializable,
    and_iff_right hnodup, WorkflowContinuation.toRunnableUnchecked_iff, hnodes]
  constructor
  · intro hall
    refine ⟨fun id hid => ?_, fun n hn => (hall n hn).2⟩
    obtain ⟨n, hn, hname⟩ := List.mem_map.mp (homits.present id hid)
    cases n with
    | task name fields next =>
      obtain rfl : name = id := Option.some.inj hname
      exact (hall _ hn).1.2
    | _ => cases hname
  · rintro ⟨hcollected, hwhole⟩ n hn
    refine ⟨?_, hwhole n hn⟩
    have hentered := homits.entered n hn
    cases n with
    | task id fields next => exact ⟨hentered.1, hentered.2.elim (fun h => h) (hcollected id)⟩
    | branch id keyFn branches default next => exact hentered
    | _ => trivial

end stages

section sample

attribute [local instance] Sha256.packed

/-- A task and a delay of one second. -/
def plainWorkflow : SerializableWorkflow where
  continuation := .task "a" (TaskMetadata.fields true default)
    (some (.delay "d" (Duration.fromMillis 1000) none))
  registry := (∅ : TaskRegistry).insert "a" default

theorem assembled_plainWorkflow : Assembled plainWorkflow [] :=
  .build ∅ [⟨.thenFn "a", []⟩, ⟨.delay "d" (Duration.fromMillis 1000), []⟩] plainWorkflow
    (fun _ => []) (by simp) (by simp) rfl

/-- It comes back. -/
theorem to_runnable_restores_plain :
    plainWorkflow.continuation.toSerializable.toRunnable plainWorkflow.registry
      = .ok plainWorkflow.continuation := by
  refine (to_runnable_restores_iff assembled_plainWorkflow).mpr ⟨by simp, ?_⟩
  intro n hn
  simp only [plainWorkflow, WorkflowContinuation.nodes, WorkflowContinuation.subtrees,
    WorkflowContinuation.subtreesNext, List.map_cons, List.map_nil, List.mem_cons,
    List.not_mem_nil, or_false] at hn
  rcases hn with rfl | rfl
  · exact fun d hd => by cases hd
  · exact ⟨by decide, by decide⟩

/-- The fork of a `branches` closure. -/
def collectedWorkflow : SerializableWorkflow where
  continuation := .fork "a||b" [.task "a" (TaskMetadata.fields true default) none,
    .task "b" (TaskMetadata.fields true default) none]
    (some (.task "j" (TaskMetadata.fields true default) none))
  registry := (∅ : TaskRegistry).insert "j" default

/-- It builds, but its branches are not in its registry. -/
theorem collected_branch_not_registered :
    Assembled collectedWorkflow ["a", "b"]
      ∧ collectedWorkflow.continuation.toSerializable.toRunnable collectedWorkflow.registry
        = .error (.taskNotFound "a") := by
  constructor
  · exact .build ∅ [⟨.join [.add "a", .add "b"] [] "j", []⟩] collectedWorkflow (fun _ => [])
      (by simp) (by simp) rfl
  · rfl

end sample

end Sayiir
