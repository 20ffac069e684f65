import Sayiir.Runtime.Polls

/-!
# The most urgent tasks

What the in-memory poll hands out should be sorted by urgency, and nothing that is
left out should be more urgent than something that is not. The poll stops looking as
soon as it has found as many tasks as its limit, and a hash map may iterate in any
order: if two tasks differ in urgency and not all of them fit, some order hands out
the less urgent one and leaves the other out.

Urgency is compared by the exact aging interval here, while the poll counts its whole
milliseconds. This too can reorder tasks.
-/

namespace Sayiir.InMemory

open Backend

/-- The task of an instance that can be dispatched. -/
def offer (tags : List String) (r : Row) : Option Offer :=
  (selectTask tags r.toPoolWorld).map (Offer.mk r.instanceId)

/-- The tasks of these instances that can be dispatched. -/
def offered (tags : List String) (rows : List Row) : List Offer := rows.filterMap (offer tags)

/-! ## The loop over the instances -/

/-- Also with a limit of zero one task is handed out. -/
theorem collectAvailable_eq (tags : List String) {limit : Nat} {available : List Offer}
    (rows : List Row) (h : available.length < max limit 1) :
    collectAvailable tags limit available rows
      = available ++ (offered tags rows).take (max limit 1 - available.length) := by
  induction rows generalizing available with
  | nil => simp [collectAvailable, offered]
  | cons r rows ih =>
    rw [collectAvailable]
    cases hr : selectTask tags r.toPoolWorld with
    | none =>
      have hskip : offered tags (r :: rows) = offered tags rows := by
        rw [offered, List.filterMap_cons_none (by rw [offer, hr]; rfl)]
        rfl
      rw [hskip]
      exact ih h
    | some task =>
      have hfound : offered tags (r :: rows) = ⟨r.instanceId, task⟩ :: offered tags rows := by
        rw [offered, List.filterMap_cons_some (by rw [offer, hr]; rfl)]
        rfl
      obtain ⟨k, hk⟩ : ∃ k, max limit 1 - available.length = k + 1 :=
        ⟨max limit 1 - available.length - 1, by omega⟩
      rw [hfound, hk, List.take_succ_cons]
      dsimp only
      split
      · have hlast : k = 0 := by omega
        rw [hlast, List.take_zero]
      · have hlength : (available ++ [Offer.mk r.instanceId task]).length
            = available.length + 1 := List.length_append
        have hleft : max limit 1 - (available.length + 1) = k := by omega
        rw [ih (by omega), hlength, hleft, List.append_assoc, List.singleton_append]

/-! ## Iteration orders -/

section orders

variable {rows order : List Row}

theorem offered_perm (tags : List String) (h : order.Perm rows) :
    (offered tags order).Perm (offered tags rows) :=
  h.filterMap _

theorem nodup_offered {tags : List String} (hids : (rows.map fun r => r.instanceId).Nodup) :
    (offered tags rows).Nodup := by
  refine List.Nodup.of_map Offer.instanceId ?_
  have hsub : ((offered tags rows).map Offer.instanceId).Sublist
      (rows.map fun r => r.instanceId) := by
    rw [offered, List.map_filterMap]
    induction rows with
    | nil => exact List.Sublist.refl _
    | cons r rows ih =>
      have ih := ih (List.nodup_cons.mp hids).2
      cases hr : selectTask tags r.toPoolWorld with
      | none =>
        rw [List.filterMap_cons_none (by rw [offer, hr]; rfl)]
        exact ih.cons _
      | some task =>
        rw [List.filterMap_cons_some (by rw [offer, hr]; rfl)]
        exact ih.cons_cons _
  exact hids.sublist hsub

/-- Instances are found by their id. -/
theorem find_eq_some_iff (hids : (rows.map fun r => r.instanceId).Nodup) {instanceId : String}
    {r : Row} :
    rows.find? (fun r => r.instanceId = instanceId) = some r
      ↔ r ∈ rows ∧ r.instanceId = instanceId := by
  constructor
  · intro h
    exact ⟨List.mem_of_find?_eq_some h, by simpa using List.find?_some h⟩
  · rintro ⟨hr, rfl⟩
    cases hf : rows.find? fun r' => r'.instanceId = r.instanceId with
    | none => exact absurd (decide_eq_true rfl) (List.find?_eq_none.mp hf r hr)
    | some r' =>
      have hid : r'.instanceId = r.instanceId := by simpa using List.find?_some hf
      rw [List.inj_on_of_nodup_map hids (List.mem_of_find?_eq_some hf) hr hid]

theorem urgency_perm (h : order.Perm rows) (hids : (rows.map fun r => r.instanceId).Nodup)
    (workerId : String) (nowTs aging : ℚ) :
    urgency order workerId nowTs aging = urgency rows workerId nowTs aging := by
  have hids' := (h.map fun r => r.instanceId).nodup_iff.mpr hids
  have hfind : ∀ instanceId : String, order.find? (fun r => r.instanceId = instanceId)
      = rows.find? fun r => r.instanceId = instanceId := by
    intro instanceId
    ext r
    rw [find_eq_some_iff hids, find_eq_some_iff hids', h.mem_iff]
  funext o
  simp only [urgency, hfind]

end orders

/-! ## Urgency -/

/-- Two tasks of a store compare alike at any point in time. -/
theorem urgency_lt_iff {rows : List Row} {workerId : String} {aging : ℚ} {a b : Offer}
    (ha : ∃ r ∈ rows, r.instanceId = a.instanceId) (hb : ∃ r ∈ rows, r.instanceId = b.instanceId)
    (now now' : ℚ) :
    urgency rows workerId now aging a < urgency rows workerId now aging b
      ↔ urgency rows workerId now' aging a < urgency rows workerId now' aging b := by
  have hfound : ∀ o : Offer, (∃ r ∈ rows, r.instanceId = o.instanceId) →
      ∃ r, rows.find? (fun r => r.instanceId = o.instanceId) = some r := by
    rintro o ⟨r, hr, hid⟩
    exact Option.isSome_iff_exists.mp (List.find?_isSome.mpr ⟨r, hr, decide_eq_true hid⟩)
  obtain ⟨r, hr⟩ := hfound a ha
  obtain ⟨r', hr'⟩ := hfound b hb
  have hshift : ∀ p p' u u' n : ℚ, p - (n - u) / aging < p' - (n - u') / aging
      ↔ p + u / aging < p' + u' / aging := by
    intro p p' u u' n
    rw [sub_div, sub_div]
    constructor
    · intro h
      linarith
    · intro h
      linarith
  simp only [urgency, hr, hr', Option.elim_some, Prod.Lex.lt_iff, ofLex_toLex, hshift]

theorem exists_row_of_mem_offered {tags : List String} {rows : List Row} {a : Offer}
    (h : a ∈ offered tags rows) :
    ∃ r ∈ rows, offer tags r = some a ∧ r.instanceId = a.instanceId := by
  obtain ⟨r, hr, ha⟩ := List.mem_filterMap.mp h
  obtain ⟨task, -, rfl⟩ := Option.map_eq_some_iff.mp ha
  exact ⟨r, hr, ha, rfl⟩

section hashed

variable [Sha256]

theorem instanceId_wake (tags : List String) (r : Row) :
    (wake tags r).instanceId = r.instanceId := by
  have hadvance : ∀ advance w, (applyAdvance advance w).instanceId = w.instanceId := by
    intro advance w
    cases advance <;> rfl
  change (pollInMemory tags r.toPoolWorld).2.instanceId = r.instanceId
  unfold pollInMemory
  dsimp only
  split
  · rfl
  · rw [hadvance]
    split <;> rfl

/-! ## What a poll hands out -/

section poll

variable (store : Store) (workerId : String) (limit : Nat) (agingInterval : Int)
  (tags : List String)

/-- The instances once expired claims are dropped and waits that are over are left. -/
def woken : List Row := store.rows.map (wake tags)

/-- The tasks that can be dispatched. -/
def dispatchable : List Offer := offered tags (woken store tags)

/-- Urgency as of now, with an aging interval in seconds. -/
def urgencyNow (aging : ℚ) (o : Offer) : Bool ×ₗ ℚ :=
  urgency (woken store tags) workerId ((store.now : ℚ) / 1000000000) aging o

/-- What the poll sorts by: the clock in whole seconds, the interval in milliseconds. -/
def sortKey (o : Offer) : Bool ×ₗ ℚ :=
  urgency (woken store tags) workerId ((store.now / 1000000000 : Nat) : ℚ)
    (agingSecs agingInterval) o

/-- The aging interval in seconds, at least one. -/
def exactAging (agingInterval : Int) : ℚ := max ((agingInterval : ℚ) / 1000000000) 1

/-- A poll that iterates in this order hands out the most urgent tasks, sorted. -/
structure MostUrgent (order : List Row) : Prop where
  sorted : (findAvailableTasks workerId limit agingInterval tags store.now order).1.Pairwise
    fun a b => urgencyNow store workerId tags (exactAging agingInterval) a
      ≤ urgencyNow store workerId tags (exactAging agingInterval) b
  optimal : ∀ a ∈ dispatchable store tags,
    a ∉ (findAvailableTasks workerId limit agingInterval tags store.now order).1 →
    ∀ b ∈ (findAvailableTasks workerId limit agingInterval tags store.now order).1,
      ¬ urgencyNow store workerId tags (exactAging agingInterval) a
        < urgencyNow store workerId tags (exactAging agingInterval) b

variable {store workerId limit agingInterval tags} {order : List Row}

theorem nodup_ids_woken : ((woken store tags).map fun r => r.instanceId).Nodup := by
  have hids : (woken store tags).map (fun r => r.instanceId)
      = store.rows.map fun r => r.instanceId := by
    rw [woken, List.map_map]
    exact List.map_congr_left fun r _ => instanceId_wake tags r
  rw [hids]
  exact store.ids

variable (workerId limit agingInterval tags) in
/-- The poll sorts the first tasks that it finds. -/
theorem findAvailableTasks_eq (h : order.Perm store.rows) :
    (findAvailableTasks workerId limit agingInterval tags store.now order).1
      = ((offered tags (order.map (wake tags))).take (max limit 1)).insertionSort fun a b =>
          sortKey store workerId agingInterval tags a
            ≤ sortKey store workerId agingInterval tags b := by
  have hperm : (order.map (wake tags)).Perm (woken store tags) := h.map _
  have hcollect := collectAvailable_eq tags (order.map (wake tags))
    (Nat.lt_of_lt_of_le Nat.one_pos (Nat.le_max_right limit 1) : ([] : List Offer).length < _)
  simp only [findAvailableTasks]
  rw [hcollect, urgency_perm hperm nodup_ids_woken, List.nil_append]
  rfl

/-- The poll compares tasks by the whole milliseconds of the aging interval. -/
theorem le_of_mem_dispatchable {a b : Offer} (ha : a ∈ dispatchable store tags)
    (hb : b ∈ dispatchable store tags) :
    sortKey store workerId agingInterval tags a ≤ sortKey store workerId agingInterval tags b
    ↔ ¬ urgencyNow store workerId tags (agingSecs agingInterval) b
      < urgencyNow store workerId tags (agingSecs agingInterval) a := by
  obtain ⟨r, hr, -, hra⟩ := exists_row_of_mem_offered ha
  obtain ⟨r', hr', -, hrb⟩ := exists_row_of_mem_offered hb
  rw [← not_lt, sortKey, sortKey,
    urgency_lt_iff ⟨r', hr', hrb⟩ ⟨r, hr, hra⟩ _ ((store.now : ℚ) / 1000000000)]
  rfl

/-- Some order comes to `b` first and to `a` last. -/
theorem exists_order {a b : Offer} (ha : a ∈ dispatchable store tags)
    (hb : b ∈ dispatchable store tags) (hne : a ≠ b) :
    ∃ order : List Row, order.Perm store.rows
      ∧ ∃ m, offered tags (order.map (wake tags)) = b :: m ++ [a] := by
  obtain ⟨r, hr, hra, -⟩ := exists_row_of_mem_offered ha
  obtain ⟨r', hr', hrb, -⟩ := exists_row_of_mem_offered hb
  obtain ⟨ra, hra', rfl⟩ := List.mem_map.mp hr
  obtain ⟨rb, hrb', rfl⟩ := List.mem_map.mp hr'
  have hrows : ra ≠ rb := by
    rintro rfl
    exact hne (Option.some.inj (hra.symm.trans hrb))
  obtain ⟨m, hm⟩ := Ranking.exists_perm_ends hra' hrb' hrows
  refine ⟨_, hm, offered tags (m.map (wake tags)), ?_⟩
  rw [List.map_append, List.map_cons, offered, List.filterMap_append,
    List.filterMap_cons_some hrb, List.map_singleton, List.filterMap_cons_some hra]
  rfl

/-- **The in-memory poll hands out the most urgent tasks in every iteration order if and
only if**, whenever two tasks differ in urgency, all tasks fit into the limit and the two
still differ when the aging interval is cut to whole milliseconds. -/
theorem most_urgent_iff :
    (∀ order, order.Perm store.rows →
        MostUrgent store workerId limit agingInterval tags order)
      ↔ ∀ a ∈ dispatchable store tags, ∀ b ∈ dispatchable store tags,
          urgencyNow store workerId tags (exactAging agingInterval) a
              < urgencyNow store workerId tags (exactAging agingInterval) b →
            (dispatchable store tags).length ≤ max limit 1
              ∧ urgencyNow store workerId tags (agingSecs agingInterval) a
                < urgencyNow store workerId tags (agingSecs agingInterval) b := by
  constructor
  · intro h a ha b hb hlt
    have hne : a ≠ b := by
      rintro rfl
      exact lt_irrefl _ hlt
    obtain ⟨order, hperm, m, hoffered⟩ := exists_order ha hb hne
    obtain ⟨hsorted, hoptimal⟩ := h order hperm
    have hlength : (b :: m ++ [a]).length = (dispatchable store tags).length := by
      rw [← hoffered]
      exact (offered_perm tags (hperm.map _)).length_eq
    rw [findAvailableTasks_eq workerId limit agingInterval tags hperm, hoffered]
      at hsorted hoptimal
    have hfit : (dispatchable store tags).length ≤ max limit 1 := by
      by_contra hmany
      -- the first task is handed out and the last one is not
      have htake : (b :: m ++ [a]).take (max limit 1) = (b :: m).take (max limit 1) := by
        refine List.take_append_of_le_length ?_
        rw [List.length_append, List.length_singleton] at hlength
        omega
      have hnodup : (b :: m ++ [a]).Nodup := by
        rw [← hoffered]
        exact ((offered_perm tags (hperm.map (wake tags))).nodup_iff).mpr
          (nodup_offered nodup_ids_woken)
      have hout : a ∉ b :: m := by
        intro hmem
        exact (List.nodup_append.mp hnodup).2.2 a hmem a (List.mem_singleton.mpr rfl) rfl
      refine hoptimal a ha ?_ b ?_ hlt
      · rw [List.mem_insertionSort, htake]
        exact fun hmem => hout (List.mem_of_mem_take hmem)
      · rw [List.mem_insertionSort, htake]
        obtain ⟨k, hk⟩ : ∃ k, max limit 1 = k + 1 := ⟨max limit 1 - 1, by omega⟩
        rw [hk, List.take_succ_cons]
        exact List.mem_cons_self
    refine ⟨hfit, ?_⟩
    by_contra hcounted
    -- the sort is stable, so that the less urgent task stays in front
    have hpair : [b, a].Sublist (b :: m ++ [a]) :=
      List.Sublist.cons_cons b (List.sublist_append_right m [a])
    rw [List.take_of_length_le (hlength.trans_le hfit)] at hsorted
    have hkept := List.pair_sublist_insertionSort
      (r := fun a b => sortKey store workerId agingInterval tags a
        ≤ sortKey store workerId agingInterval tags b)
      ((le_of_mem_dispatchable hb ha).mpr hcounted) hpair
    have hpairwise := hsorted.sublist hkept
    exact not_le.mpr hlt (List.rel_of_pairwise_cons hpairwise (List.mem_singleton.mpr rfl))
  · intro h order hperm
    have hfound := offered_perm tags (hperm.map (wake tags))
    have hpoll := findAvailableTasks_eq workerId limit agingInterval tags hperm
    have hout : ∀ {o}, o ∈ (findAvailableTasks workerId limit agingInterval tags store.now
        order).1 → o ∈ dispatchable store tags := by
      intro o ho
      rw [hpoll, List.mem_insertionSort] at ho
      exact hfound.mem_iff.mp (List.mem_of_mem_take ho)
    constructor
    · have hsorted : (findAvailableTasks workerId limit agingInterval tags store.now
          order).1.Pairwise fun a b => sortKey store workerId agingInterval tags a
            ≤ sortKey store workerId agingInterval tags b := by
        rw [hpoll]
        exact List.pairwise_insertionSort _ _
      refine hsorted.imp_of_mem fun ha hb hle => not_lt.mp fun hlt => ?_
      exact (le_of_mem_dispatchable (hout ha) (hout hb)).mp hle (h _ (hout hb) _ (hout ha) hlt).2
    · intro a ha hnot b hb hlt
      -- everything fits, so that nothing is left out
      obtain ⟨hfit, -⟩ := h a ha b (hout hb) hlt
      refine hnot ?_
      rw [hpoll, List.mem_insertionSort, List.take_of_length_le (hfound.length_eq.trans_le hfit)]
      exact hfound.mem_iff.mpr ha

end poll

end hashed

section sample

attribute [local instance] Sha256.packed

/-- An instance at its first task, which has this priority. -/
def waitingRow (instanceId : String) (priority : UInt8) (tid : Nat) : Row where
  toWorld := { World.fresh instanceId 0 with
    snapshot := some { (WorkflowSnapshot.withInitialInput instanceId ⟨0⟩ [7]).updatePosition
      (.atTask (TaskId.sha256 "t")) with taskPriority := some priority } }
  claims := []
  outputs := fun _ => none
  updatedAt := 0
  tid := tid

/-- A task of low priority and one of high priority. -/
def twoPriorities : Store where
  now := 0
  rows := [waitingRow "low" 5 0, waitingRow "high" 1 1]
  clocks := by decide
  ids := by decide
  tids := by decide

/-- With a limit of one, the task that the hash map comes to first is handed out, and the
one of high priority is left out. -/
theorem less_urgent_task_polled :
    (findAvailableTasks "w" 1 300000000000 [] twoPriorities.now twoPriorities.rows).1.map
        Offer.instanceId = ["low"]
      ∧ ¬ MostUrgent twoPriorities "w" 1 300000000000 [] twoPriorities.rows := by
  have hleft : ∃ a ∈ dispatchable twoPriorities [],
      a ∉ (findAvailableTasks "w" 1 300000000000 [] twoPriorities.now twoPriorities.rows).1
        ∧ ∃ b ∈ (findAvailableTasks "w" 1 300000000000 [] twoPriorities.now twoPriorities.rows).1,
          urgencyNow twoPriorities "w" [] (exactAging 300000000000) a
            < urgencyNow twoPriorities "w" [] (exactAging 300000000000) b := by
    decide +kernel
  refine ⟨by decide +kernel, fun h => ?_⟩
  obtain ⟨a, ha, hnot, b, hb, hlt⟩ := hleft
  exact h.optimal a ha hnot b hb hlt

end sample

end Sayiir.InMemory
