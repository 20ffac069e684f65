import Sayiir.Persistence.Backend

/-!
# How long an in-memory claim lasts

A claim carries the second in which it ends, and it is compared with the second
the clock is in. Both are truncated, so a claim taken or renewed at `t` for `d` is
over at the beginning of the second that holds `t + d`, not at `t + d`.

The callers' view of a claim is its `Term`: who was granted it, and when it ends
by their own reckoning. `Tracks` relates it to what the store holds, and every call
keeps that. From there both bounds are arithmetic on seconds.
-/

namespace Sayiir.Leases

open Backend PoolWorld

variable {w : PoolWorld}

/-- What the holder of a claim reckons with: its last renewal plus its TTL. -/
structure Term where
  holder : String
  ends : Option Time
  deriving DecidableEq

/-- The time is in the last, incomplete second of the term. -/
def Term.cutShort (term : Term) (now : Time) : Bool :=
  term.ends.any fun e => decide (e / 1000000000 ≤ now / 1000000000) && decide (now < e)

/-- The term is not over yet. -/
def Term.isLive (term : Term) (now : Time) : Bool := term.ends.all fun e => decide (now < e)

/-- The store, and the terms that were granted. -/
structure Desk where
  world : PoolWorld
  terms : TaskId → Option Term

/-- A call on the claims of the store, time passing, or anything else that is
done to the store. -/
inductive Call where
  | claimTask (taskId : TaskId) (workerId : String) (ttl : Option Duration)
  | extendTaskClaim (taskId : TaskId) (workerId : String) (ttl : Duration)
  | releaseTaskClaim (taskId : TaskId) (workerId : String)
  | findAvailableTasks
  | tick (d : Duration)
  | store (f : PoolWorld → PoolWorld)

/-- One call, and what its answer tells about the terms. -/
def perform (c : Call) (desk : Desk) : Desk :=
  let w := desk.world
  match c with
  | .claimTask taskId workerId ttl =>
    match inMemory.claimTask taskId workerId ttl w with
    | (true, w') => ⟨w', Function.update desk.terms taskId (some ⟨workerId, ttl.map (w.clock + ·)⟩)⟩
    | (false, w') => ⟨w', desk.terms⟩
  | .extendTaskClaim taskId workerId ttl =>
    match inMemory.extendTaskClaim taskId workerId ttl w with
    | (.ok (), w') => ⟨w', Function.update desk.terms taskId ((desk.terms taskId).map fun term =>
        { term with ends := term.ends.map fun _ => w.clock + ttl })⟩
    | (.error _, w') => ⟨w', desk.terms⟩
  | .releaseTaskClaim taskId workerId =>
    match inMemory.releaseTaskClaim taskId workerId w with
    | (.ok (), w') => ⟨w', Function.update desk.terms taskId none⟩
    | (.error _, w') => ⟨w', desk.terms⟩
  | .findAvailableTasks => ⟨dropExpired w, desk.terms⟩
  | .tick d => ⟨{ w with clock := w.clock + d }, desk.terms⟩
  | .store f => ⟨{ f w with claims := w.claims, clock := w.clock }, desk.terms⟩

/-- No other worker claims a task, and no poll is made, in the last, incomplete
second of a term. -/
def Patient (c : Call) (desk : Desk) : Prop :=
  match c with
  | .claimTask taskId workerId _ => ∀ term, desk.terms taskId = some term →
      term.holder ≠ workerId → ¬ term.cutShort desk.world.clock
  | .findAvailableTasks => ∀ taskId term, desk.terms taskId = some term →
      ¬ term.cutShort desk.world.clock
  | _ => True

/-- The desks reached from an empty one by calls that meet a condition. -/
inductive Reached (C : Call → Desk → Prop) : Desk → Prop where
  | start (w : PoolWorld) : w.claims = [] → Reached C ⟨w, fun _ => none⟩
  | step {desk : Desk} (c : Call) : Reached C desk → C c desk → Reached C (perform c desk)

/-! ## The stored claim tracks its term -/

/-- The claim the store holds for a term. -/
def Term.toClaim (term : Term) (taskId : TaskId) : TaskClaim :=
  ⟨taskId, term.holder, term.ends.map (· / 1000000000)⟩

/-- The store holds the claim of every term that is not over, and no claim of
anything else. -/
structure Tracks (desk : Desk) : Prop where
  /-- A stored claim is that of its task's term. -/
  known : ∀ c ∈ desk.world.claims,
    ∃ term, desk.terms c.taskId = some term ∧ c = term.toClaim c.taskId
  /-- The claim of a term is only gone once the term is over. -/
  held : ∀ taskId term, desk.terms taskId = some term → term.isLive desk.world.clock →
    term.toClaim taskId ∈ desk.world.claims

variable {desk : Desk} {taskId : TaskId} {term : Term} {now : Time}

theorem isExpired_toClaim :
    inMemory.isExpired now (term.toClaim taskId)
      = term.ends.any fun e => decide (e / 1000000000 ≤ now / 1000000000) := by
  unfold isExpired Term.toClaim
  cases term.ends <;> rfl

/-- An expired claim is that of a term that is over or is being cut short. -/
theorem not_isLive_of_isExpired (h : inMemory.isExpired now (term.toClaim taskId))
    (hcut : ¬ term.cutShort now) : ¬ term.isLive now := by
  rw [isExpired_toClaim] at h
  intro hlive
  apply hcut
  unfold Term.cutShort
  unfold Term.isLive at hlive
  cases he : term.ends with
  | none => simp [he] at h
  | some e => simp_all

theorem isLive_of_le {later : Time} (hle : now ≤ later) (h : term.isLive later) :
    term.isLive now := by
  unfold Term.isLive at *
  cases he : term.ends with
  | none => rfl
  | some e =>
    simp only [he, Option.all_some, decide_eq_true_eq] at h ⊢
    exact lt_of_le_of_lt hle h

namespace Tracks

/-- A call that changes the claim of one task and its term alike. -/
theorem at_task (h : Tracks desk) {term : Option Term} (hclock : w.clock = desk.world.clock)
    (hmem : ∀ c, c ∈ w.claims ↔
      (c.taskId ≠ taskId ∧ c ∈ desk.world.claims) ∨ term.map (·.toClaim taskId) = some c) :
    Tracks ⟨w, Function.update desk.terms taskId term⟩ := by
  refine ⟨fun c hc => ?_, fun other term' ht hlive => ?_⟩
  · dsimp only at hc ⊢
    rcases (hmem c).mp hc with ⟨hne, hc⟩ | hc
    · rw [Function.update_of_ne hne]
      exact h.known c hc
    · obtain ⟨term', ht, rfl⟩ := Option.map_eq_some_iff.mp hc
      exact ⟨term', by rw [ht]; exact Function.update_self .., rfl⟩
  · dsimp only at ht hlive ⊢
    rw [hmem]
    by_cases hother : other = taskId
    · subst hother
      rw [Function.update_self] at ht
      exact .inr (by rw [ht]; rfl)
    · rw [Function.update_of_ne hother] at ht
      exact .inl ⟨hother, h.held other term' ht (hclock ▸ hlive)⟩

theorem claim (h : Tracks desk) (workerId : String) (ttl : Option Duration) :
    Tracks (perform (.claimTask taskId workerId ttl) desk) := by
  by_cases hc : inMemory.claimable taskId desk.world
  · simp only [perform, Backend.claimTask, hc, if_true]
    refine at_task h (by rfl) fun c => ?_
    have hclaim : (⟨taskId, workerId, ttl.map (inMemory.expiry desk.world.clock)⟩ : TaskClaim)
        = Term.toClaim ⟨workerId, ttl.map (desk.world.clock + ·)⟩ taskId := by
      cases ttl <;> rfl
    rw [List.mem_cons, List.mem_filter, decide_eq_true_eq, hclaim, Option.map_some,
      Option.some.injEq, or_comm, and_comm, eq_comm (a := c)]
  · simp only [perform, Backend.claimTask, hc]
    exact h

theorem release (h : Tracks desk) (workerId : String) :
    Tracks (perform (.releaseTaskClaim taskId workerId) desk) := by
  cases ho : inMemory.ownClaim taskId workerId desk.world with
  | error e =>
    simp only [perform, Backend.releaseTaskClaim, ho]
    exact h
  | ok c =>
    simp only [perform, Backend.releaseTaskClaim, ho]
    refine at_task h (by rfl) fun c => ?_
    rw [List.mem_filter, Option.map_none, decide_eq_true_eq, and_comm]
    simp

/-- A worker that owns the claim of a task is one the store holds a claim of. -/
theorem mem_of_ownClaim {workerId : String} {c : TaskClaim}
    (h : inMemory.ownClaim taskId workerId w = .ok c) : c ∈ w.claims ∧ c.taskId = taskId := by
  unfold ownClaim at h
  split at h
  · cases h
  · rename_i claim hfind
    split at h
    · cases h
    · split at h
      · cases h
      · rename_i htask
        cases h
        exact ⟨List.mem_of_find?_eq_some hfind, not_not.mp htask⟩

theorem extend (h : Tracks desk) (workerId : String) (ttl : Duration) :
    Tracks (perform (.extendTaskClaim taskId workerId ttl) desk) := by
  cases ho : inMemory.ownClaim taskId workerId desk.world with
  | error e =>
    simp only [perform, Backend.extendTaskClaim, ho]
    exact h
  | ok own =>
    obtain ⟨hown, htask⟩ := mem_of_ownClaim ho
    obtain ⟨term, ht, heq⟩ := h.known own hown
    rw [htask] at ht heq
    simp only [perform, Backend.extendTaskClaim, ho]
    refine at_task h (by rfl) fun c => ?_
    rw [ht, Option.map_some, Option.map_some, Option.some.injEq, List.mem_map]
    -- the renewed claim is that of the renewed term, the others are as they were
    have hrenew : ({ own with
        expiresAt := own.expiresAt.map fun _ => inMemory.expiry desk.world.clock ttl } : TaskClaim)
        = Term.toClaim { term with ends := term.ends.map fun _ => desk.world.clock + ttl }
            taskId := by
      rw [heq]
      unfold Term.toClaim
      cases term.ends <;> rfl
    constructor
    · rintro ⟨old, hold, rfl⟩
      by_cases hof : old.taskId = taskId
      · obtain ⟨term', ht', heq'⟩ := h.known old hold
        rw [hof, ht, Option.some.injEq] at ht'
        rw [hof, ← ht', ← heq] at heq'
        rw [heq', if_pos htask, hrenew]
        exact .inr rfl
      · rw [if_neg hof]
        exact .inl ⟨hof, hold⟩
    · rintro (⟨hne, hc⟩ | rfl)
      · exact ⟨c, hc, if_neg hne⟩
      · exact ⟨own, hown, by rw [if_pos htask, hrenew]⟩

/-- The first section of a poll only drops claims of terms that are over. -/
theorem drop (h : Tracks desk) (hp : Patient .findAvailableTasks desk) :
    Tracks (perform .findAvailableTasks desk) := by
  refine ⟨fun c hc => h.known c (List.mem_filter.mp hc).1, fun taskId term ht hlive => ?_⟩
  refine List.mem_filter.mpr ⟨h.held taskId term ht hlive, ?_⟩
  cases hexp : inMemory.isExpired desk.world.clock (term.toClaim taskId) with
  | false => rfl
  | true => exact absurd hlive (not_isLive_of_isExpired hexp (hp taskId term ht))

theorem tick (h : Tracks desk) (d : Duration) : Tracks (perform (.tick d) desk) :=
  ⟨h.known, fun taskId term ht hlive =>
    h.held taskId term ht (isLive_of_le (Nat.le_add_right ..) hlive)⟩

end Tracks

/-- **One call keeps the claims and the terms together.** -/
theorem tracks_perform (c : Call) (h : Tracks desk) (hp : Patient c desk) :
    Tracks (perform c desk) := by
  cases c with
  | claimTask taskId workerId ttl => exact h.claim workerId ttl
  | extendTaskClaim taskId workerId ttl => exact h.extend workerId ttl
  | releaseTaskClaim taskId workerId => exact h.release workerId
  | findAvailableTasks => exact h.drop hp
  | tick d => exact h.tick d
  | store f => exact ⟨h.known, h.held⟩

theorem tracks_of_reached (h : Reached Patient desk) : Tracks desk := by
  induction h with
  | start w hw => exact ⟨by simp [hw], by simp⟩
  | step c _ hp ih => exact tracks_perform c ih hp

/-! ## Both bounds -/

/-- A claim is granted unless the stored one, that of the term, has not expired. -/
theorem claimTask_of_held (h : Tracks desk) (ht : desk.terms taskId = some term)
    (hheld : term.toClaim taskId ∈ desk.world.claims) (workerId : String) (ttl : Option Duration) :
    (inMemory.claimTask taskId workerId ttl desk.world).1
      = inMemory.isExpired desk.world.clock (term.toClaim taskId) := by
  have hfind : inMemory.findClaim taskId desk.world = some (term.toClaim taskId) := by
    cases hc : inMemory.findClaim taskId desk.world with
    | none => simpa [Term.toClaim] using List.find?_eq_none.mp hc _ hheld
    | some c =>
      obtain ⟨term', ht', heq⟩ := h.known c (List.mem_of_find?_eq_some hc)
      have htask : c.taskId = taskId := by simpa using List.find?_some hc
      rw [htask, ht, Option.some.injEq] at ht'
      rw [heq, htask, ht']
  unfold Backend.claimTask claimable
  rw [hfind]
  cases hexp : inMemory.isExpired desk.world.clock (term.toClaim taskId) <;> simp [hexp]

/-- A claim is granted once the stored one, if any, has expired. -/
theorem claimTask_of_expired (h : Tracks desk) (ht : desk.terms taskId = some term)
    (hexp : inMemory.isExpired desk.world.clock (term.toClaim taskId)) (workerId : String)
    (ttl : Option Duration) : (inMemory.claimTask taskId workerId ttl desk.world).1 = true := by
  by_cases hheld : term.toClaim taskId ∈ desk.world.claims
  · rw [claimTask_of_held h ht hheld, hexp]
  · have hfind : inMemory.findClaim taskId desk.world = none := by
      apply List.find?_eq_none.mpr
      intro c hc htask
      obtain ⟨term', ht', heq⟩ := h.known c hc
      have htask : c.taskId = taskId := by simpa using htask
      rw [htask, ht, Option.some.injEq] at ht'
      rw [htask, ← ht'] at heq
      exact hheld (heq ▸ hc)
    unfold Backend.claimTask claimable
    rw [hfind]
    rfl

theorem selectTask_ne_of_claimed {tags : List String} {task : AvailableTask}
    (h : selectTask tags w = some task) : inMemory.findClaim task.taskId w = none := by
  unfold selectTask at h
  split at h
  · split at h
    · split at h
      · cases h
      · rename_i hfree
        obtain ⟨-, rfl, -⟩ := buildAvailableTask_eq_some h
        simp only [Bool.or_eq_true, not_or, Option.not_isSome_iff_eq_none] at hfree
        exact hfree.1.1.2
    · cases h
  · cases h

/--
**A claim lasts its TTL, up to the whole second.** However claims, renewals, releases
and polls follow each other, at whatever times, if no other worker claims a task and
no poll is made in the last, incomplete second of a term: before the last renewal
plus its TTL the claims of others are refused, except in that very second, and no poll
offers the task; one second after it any worker is granted the task.
-/
theorem claim_lasts_its_ttl (h : Reached Patient desk) (ht : desk.terms taskId = some term) :
    (term.isLive desk.world.clock →
      (∀ workerId ttl, (inMemory.claimTask taskId workerId ttl desk.world).1
        = term.cutShort desk.world.clock)
      ∧ ∀ tags, ∀ task ∈ selectTask tags desk.world, task.taskId ≠ taskId)
    ∧ ∀ e, term.ends = some e → e + 1000000000 ≤ desk.world.clock →
        ∀ workerId ttl, (inMemory.claimTask taskId workerId ttl desk.world).1 = true := by
  have hd := tracks_of_reached h
  refine ⟨fun hlive => ⟨fun workerId ttl => ?_, ?_⟩, ?_⟩
  · rw [claimTask_of_held hd ht (hd.held taskId term ht hlive), isExpired_toClaim]
    unfold Term.isLive at hlive
    unfold Term.cutShort
    cases he : term.ends with
    | none => rfl
    | some e => simp_all
  · rintro tags task htask rfl
    have hnone := selectTask_ne_of_claimed htask
    simpa [Term.toClaim] using List.find?_eq_none.mp hnone _ (hd.held task.taskId term ht hlive)
  · intro e he hlapsed
    apply claimTask_of_expired hd ht
    rw [isExpired_toClaim, he]
    have hle : e / 1000000000 ≤ desk.world.clock / 1000000000 :=
      Nat.div_le_div_right (le_trans (Nat.le_add_right ..) hlapsed)
    simpa using hle

section sample

attribute [local instance] Sha256.packed

/-- An empty store, nine tenths of a second after a full one. -/
def emptyDesk : Desk := ⟨⟨World.fresh "i" 900000000, [], fun _ => none⟩, fun _ => none⟩

/-- A claim for two seconds and a renewal for 1.1 seconds, made one second later. -/
def renewed : Desk :=
  perform (.extendTaskClaim (TaskId.sha256 "t") "a" 1100000000)
    (perform (.tick 1000000000)
      (perform (.claimTask (TaskId.sha256 "t") "a" (some 2000000000)) emptyDesk))

/-- The renewed claim ends after three seconds, and one second later another worker
is granted the task. -/
theorem renewed_claim_lasts_its_ttl :
    let late := perform (.tick 2100000000) renewed
    renewed.terms (TaskId.sha256 "t") = some ⟨"a", some 3000000000⟩
      ∧ (inMemory.claimTask (TaskId.sha256 "t") "b" none renewed.world).1 = false
      ∧ (inMemory.claimTask (TaskId.sha256 "t") "b" none late.world).1 = true := by
  intro late
  have hrenewed : Reached Patient renewed :=
    .step _ (.step _ (.step _ (.start _ rfl) (by rintro term ⟨⟩)) trivial) trivial
  have hlate : Reached Patient late := .step _ hrenewed trivial
  have hterm : renewed.terms (TaskId.sha256 "t") = some ⟨"a", some 3000000000⟩ := by decide
  refine ⟨hterm, ?_, ?_⟩
  · rw [((claim_lasts_its_ttl hrenewed hterm).1 (by decide)).1]
    decide
  · have hsame : late.terms (TaskId.sha256 "t") = some ⟨"a", some 3000000000⟩ := hterm
    exact (claim_lasts_its_ttl hlate hsame).2 3000000000 rfl (by decide) "b" none

/-- A claim for one second, taken at 0.9 seconds, is given to another worker at 1.0
seconds, and a poll at that time forgets it. -/
theorem claim_cut_short :
    let claimed := perform (.claimTask (TaskId.sha256 "t") "a" (some 1000000000)) emptyDesk
    let desk := perform (.tick 100000000) claimed
    desk.terms (TaskId.sha256 "t") = some ⟨"a", some 1900000000⟩
      ∧ desk.world.clock = 1000000000
      ∧ (inMemory.claimTask (TaskId.sha256 "t") "b" none desk.world).1 = true
      ∧ (perform .findAvailableTasks desk).world.claims = [] := by
  decide

end sample

end Sayiir.Leases
