import Sayiir.Persistence.D1
import Mathlib.Data.List.Induction

/-!
# The instances a sweep over D1 finds

`find_resumable_instances` asks for rows whose status is `in_progress`, but a save
writes the name of the variant, `InProgress`. No row ever has the status it asks
for, so a sweep finds nothing and the result is right only where nothing is due.

Behind the status there is a second difference. A stored time has a `T` after the
date and the time it is compared with a blank, which sorts before every letter, so
the comparison is decided by the dates alone.
-/

namespace Sayiir

namespace D1

/-! ## Text order -/

/-- Two dates of one length decide, since the characters behind them are in the wrong
order. -/
theorem textLE_append_iff (r s : List Char) {l m : List Char} (hlen : l.length = m.length) :
    textLE (l ++ 'T' :: r) (m ++ ' ' :: s) = true ↔ textLE l m = true ∧ l ≠ m := by
  induction l generalizing m with
  | nil =>
    obtain rfl : m = [] := List.length_eq_zero_iff.mp hlen.symm
    simp [textLE]
  | cons c l ih =>
    cases m with
    | nil => cases hlen
    | cons d m =>
      have htail := ih (Nat.succ.inj hlen)
      rw [List.cons_append, List.cons_append, textLE, textLE]
      simp only [Bool.or_eq_true, Bool.and_eq_true, decide_eq_true_eq, htail, ne_eq,
        List.cons.injEq]
      by_cases hcd : c = d
      · subst hcd
        simp
      · simp [hcd]

/-- **A stored time counts as over only from the next day on.** -/
theorem isoText_le_datetime_iff {t now : Int}
    (hlen : (dateText t).length = (dateText now).length) :
    textLE (isoText t) (datetime now) = true
      ↔ textLE (dateText t) (dateText now) = true ∧ dateText t ≠ dateText now :=
  textLE_append_iff _ _ hlen

/-! ## Rows -/

/-- A save leaves the row of the instance and those of the others. -/
theorem mem_saveSnapshot_iff {now : Time} {snapshot : WorkflowSnapshot} {t : Tables}
    {r : SnapshotRow} :
    r ∈ (saveSnapshot now snapshot t).snapshots
      ↔ r = row now snapshot ∨ (r ∈ t.snapshots ∧ r.instanceId ≠ snapshot.instanceId) := by
  unfold saveSnapshot
  split
  case isTrue hany =>
    -- the row of the instance is replaced where it stands
    obtain ⟨old, hold, hid⟩ := List.any_eq_true.mp hany
    have hid : old.instanceId = snapshot.instanceId := by simpa using hid
    simp only [List.mem_map]
    constructor
    · rintro ⟨r', hr', rfl⟩
      split
      · exact .inl rfl
      · next hne => exact .inr ⟨hr', hne⟩
    · rintro (rfl | ⟨hr, hne⟩)
      · exact ⟨old, hold, if_pos hid⟩
      · exact ⟨r, hr, if_neg hne⟩
  case isFalse hany =>
    have hnew : ∀ r ∈ t.snapshots, r.instanceId ≠ snapshot.instanceId := by
      intro r hr hid
      exact hany (List.any_eq_true.mpr ⟨r, hr, by simpa using hid⟩)
    simp only [List.mem_append, List.mem_singleton]
    constructor
    · rintro (hr | rfl)
      · exact .inr ⟨hr, hnew r hr⟩
      · exact .inl rfl
    · rintro (rfl | ⟨hr, -⟩)
      · exact .inr rfl
      · exact .inl hr

theorem tables_append (writes : List Write) (w : Write) :
    tables (writes ++ [w]) = w.apply (tables writes) := by
  unfold tables
  rw [List.foldl_append]
  rfl

theorem lastSave_append_sendEvent (instanceId i name : String) (writes : List Write) :
    lastSave instanceId (writes ++ [.sendEvent i name]) = lastSave instanceId writes := by
  unfold lastSave
  rw [List.foldl_append]
  rfl

theorem lastSave_append_saveSnapshot (instanceId : String) (now : Time)
    (snapshot : WorkflowSnapshot) (writes : List Write) :
    lastSave instanceId (writes ++ [.saveSnapshot now snapshot])
      = if snapshot.instanceId = instanceId then some (now, snapshot)
        else lastSave instanceId writes := by
  unfold lastSave
  rw [List.foldl_append]
  rfl

/-- **The table holds one row for every instance, that of its last save.** -/
theorem mem_tables_iff (writes : List Write) (r : SnapshotRow) :
    r ∈ (tables writes).snapshots
      ↔ ∃ now snapshot, lastSave r.instanceId writes = some (now, snapshot)
          ∧ r = row now snapshot := by
  -- the last write is the one that counts
  induction writes using List.reverseRecOn with
  | nil => simp [tables, lastSave]
  | append_singleton writes w ih =>
    rw [tables_append]
    cases w with
    | sendEvent i name =>
      rw [lastSave_append_sendEvent]
      exact ih
    | saveSnapshot savedAt saved =>
      rw [lastSave_append_saveSnapshot]
      rw [show r ∈ (Write.apply (.saveSnapshot savedAt saved) (tables writes)).snapshots ↔ _ from
        mem_saveSnapshot_iff, ih]
      by_cases hid : saved.instanceId = r.instanceId
      · rw [if_pos hid]
        constructor
        · rintro (hr | ⟨-, hne⟩)
          · exact ⟨savedAt, saved, rfl, hr⟩
          · exact absurd hid.symm hne
        · rintro ⟨now, snapshot, heq, hr⟩
          obtain ⟨rfl, rfl⟩ := Prod.mk.inj (Option.some.inj heq)
          exact .inl hr
      · rw [if_neg hid]
        constructor
        · rintro (rfl | ⟨hr, -⟩)
          · exact absurd rfl hid
          · exact hr
        · intro hr
          exact .inr ⟨hr, Ne.symm hid⟩

/-- No state has the name the query asks for. -/
theorem asRef_ne_in_progress (state : WorkflowSnapshotState) : state.asRef ≠ "in_progress" := by
  cases state <;> simp [WorkflowSnapshotState.asRef]

/-- The query finds nothing. -/
theorem findResumableInstances_tables (writes : List Write) (now : Time)
    (staleAfterSeconds limit : Nat) :
    findResumableInstances (tables writes) now staleAfterSeconds limit = [] := by
  have hnone : (tables writes).snapshots.filter
      (·.matches (tables writes).events now staleAfterSeconds) = [] := by
    rw [List.filter_eq_nil_iff]
    intro r hr hmatches
    obtain ⟨savedAt, snapshot, -, rfl⟩ := (mem_tables_iff writes r).mp hr
    have hstatus : snapshot.state.asRef = "in_progress" := by
      simp only [SnapshotRow.matches, Bool.and_eq_true, beq_iff_eq] at hmatches
      exact hmatches.1
    exact asRef_ne_in_progress snapshot.state hstatus
  unfold findResumableInstances
  rw [hnone]
  simp

/-- **The sweep is right exactly where nothing is due.** -/
theorem find_resumable_instances_exact_iff (writes : List Write) (now : Time)
    (staleAfterSeconds limit : Nat) :
    (∀ instanceId, instanceId ∈ findResumableInstances (tables writes) now staleAfterSeconds limit
        ↔ due writes now staleAfterSeconds instanceId = true)
      ↔ ∀ instanceId, due writes now staleAfterSeconds instanceId = false := by
  rw [findResumableInstances_tables]
  constructor
  · intro hexact instanceId
    have hnone : ¬ due writes now staleAfterSeconds instanceId = true := fun hdue =>
      List.not_mem_nil ((hexact instanceId).mpr hdue)
    exact Bool.eq_false_iff.mpr hnone
  · intro hnone instanceId
    simp [hnone instanceId]

/-- An instance was submitted at the epoch and nobody drove it. An hour later it is
stale, and the sweep does not find it. -/
theorem stale_instance_not_found :
    due [.saveSnapshot 0 (.new "i" ⟨0⟩)] 3600000000000 60 "i" = true
      ∧ findResumableInstances (tables [.saveSnapshot 0 (.new "i" ⟨0⟩)]) 3600000000000 60 1
        = [] := by
  decide +kernel

end D1

end Sayiir
