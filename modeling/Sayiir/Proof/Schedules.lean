import Sayiir.Runtime.Async
import Sayiir.Runtime.Lifecycle
import Sayiir.Runtime.Sync
import Mathlib.Data.List.Rotate
import Mathlib.Data.Countable.Basic
import Mathlib.Logic.Encodable.Basic
import Mathlib.Logic.Equiv.List

/-!
# Finishing orders

The async executor and the runner collect the results of parallel branches in the
order in which the branches finish; the runner puts the recorded ones in front.
The sequential executors collect them in the order of declaration. This module
says for which forks the two orders cannot differ.

Nothing is assumed about what a branch does. Two executions of a fork are compared
if they saw the same output of every branch (`SameOutputs`), which is what deterministic
branches give. The results are then the same up to their order, so everything is
about the list of names: it is a permutation of the declared one, restricted to the
branches that had to run.
-/

namespace Sayiir

open Exec Relation

variable {o : ForkBranchOutcome} {rs : List (String × Bytes)} {names : List String} {name : String}

/-! ## Collected results -/

/-- What taking one result can do. -/
theorem ForkBranchOutcome.add_ok {r : BranchResult} {o' : ForkBranchOutcome}
    (h : o.add name r = .ok o') :
    (∃ output, r = .ok output ∧ o' = { o with results := o.results ++ [(name, output)] })
      ∨ ∃ wakeAt, r = .error (.workflow (.waiting wakeAt)) ∧ o'.results = o.results
          ∧ o'.maxWakeAt ≠ none := by
  unfold ForkBranchOutcome.add at h
  split at h
  · cases h
    exact Or.inl ⟨_, rfl, rfl⟩
  · cases h
    exact Or.inr ⟨_, rfl, rfl, by simp⟩
  · cases h

/-- A collection without an error has seen no fatal result, and misses a result
only if a branch waits. -/
theorem collectResults_ok {l : List (String × BranchResult)} {o' : ForkBranchOutcome}
    (h : collectResults l o = .ok o') :
    (∀ x ∈ l, endsFork x.2 = false)
      ∧ (∀ r ∈ o'.results, r ∈ o.results ∨ (r.1, .ok r.2) ∈ l)
      ∧ (o'.maxWakeAt = none → o.maxWakeAt = none
          ∧ o'.results.map Prod.fst = o.results.map Prod.fst ++ l.map Prod.fst) := by
  induction l generalizing o with
  | nil =>
    cases h
    simp
  | cons x l ih =>
    obtain ⟨name, r⟩ := x
    cases hx : o.add name r with
    | error e => simp [collectResults, hx, Except.bind] at h
    | ok o₁ =>
      simp only [collectResults, hx, Except.bind] at h
      obtain ⟨hfatal, hmem, hcomplete⟩ := ih h
      rcases ForkBranchOutcome.add_ok hx with ⟨output, rfl, rfl⟩ | ⟨wakeAt, rfl, hres, hmax⟩
      · refine ⟨?_, fun y hy => ?_, fun hnone => ?_⟩
        · simpa [endsFork] using hfatal
        · rcases hmem y hy with hy | hy
          · rcases List.mem_append.mp hy with hy | hy
            · exact Or.inl hy
            · rw [List.mem_singleton] at hy
              subst hy
              exact Or.inr (by simp)
          · exact Or.inr (List.mem_cons_of_mem _ hy)
        · obtain ⟨h₁, h₂⟩ := hcomplete hnone
          exact ⟨h₁, by simpa using h₂⟩
      · refine ⟨?_, fun y hy => ?_, fun hnone => ?_⟩
        · simpa [endsFork] using hfatal
        · rw [hres] at hmem
          exact (hmem y hy).imp_right (List.mem_cons_of_mem _)
        · exact absurd (hcomplete hnone).1 hmax

theorem collectOutputs_ok {l : List (String × BranchResult)} {results : List (String × Bytes)}
    (h : collectOutputs l = .ok results) :
    l = results.map fun r => (r.1, .ok r.2) := by
  induction l generalizing results with
  | nil =>
    cases h
    rfl
  | cons x l ih =>
    obtain ⟨name, r⟩ := x
    cases r with
    | error e => simp [collectOutputs, Except.bind] at h
    | ok output =>
      cases hl : collectOutputs l with
      | error e => simp [collectOutputs, Except.bind, Except.map, hl] at h
      | ok rest =>
        simp only [collectOutputs, Except.bind, Except.map, hl, Except.ok.injEq] at h
        subst h
        simp [ih hl]

/-- The recorded results of all branches, in their order. -/
theorem collectCachedBranches_some [Sha256] {s : WorkflowSnapshot}
    {cached : List (String × Bytes)} (h : collectCachedBranches names s = some cached) :
    cached.map Prod.fst = names
      ∧ ∀ r ∈ cached, s.getTaskResultBytes (TaskId.sha256 r.1) = some r.2 := by
  unfold collectCachedBranches at h
  induction names generalizing cached with
  | nil =>
    cases h
    simp
  | cons name names ih =>
    rw [List.mapM_cons] at h
    simp only [Option.bind_eq_bind, Option.bind_eq_some_iff, Option.map_eq_some_iff] at h
    obtain ⟨_, ⟨v, hv, rfl⟩, rest, hrest, ⟨⟩⟩ := h
    obtain ⟨hnames, hval⟩ := ih hrest
    exact ⟨by simp [hnames], by simpa using ⟨hv, fun a b => hval (a, b)⟩⟩

/-! ## Lists of names -/

section names

variable {α : Type*} {l l' : List α} {done : α → Bool}

/-- A list all of whose members are equal has no other permutation. -/
theorem eq_of_perm_of_pairwise_eq (hp : l'.Perm l) (hl : l.Pairwise (· = ·)) : l' = l := by
  have hl' : l'.Pairwise (· = ·) := (hp.pairwise_iff fun h => h.symm).mpr hl
  exact hp.eq_of_pairwise (fun _ _ _ _ h _ => h) hl' hl

/-- A list that is its own rotation has equal members. -/
theorem pairwise_eq_of_rotate (h : l.rotate 1 = l) : l.Pairwise (· = ·) := by
  cases l with
  | nil => exact .nil
  | cons a l =>
    have : Nonempty α := ⟨a⟩
    obtain ⟨b, hb⟩ := List.rotate_one_eq_self_iff_eq_replicate.mp h
    rw [hb]
    exact List.pairwise_replicate.mpr (Or.inr rfl)

/-- No member that is not done stands before a different one. -/
def DoneFirst (done : α → Bool) (l : List α) : Prop :=
  l.Pairwise fun a b => done a = true ∨ b = a

/-- Putting the done members in front then changes nothing, and the others are equal. -/
theorem DoneFirst.split (h : DoneFirst done l) :
    l.filter done ++ l.filter (fun a => !done a) = l
      ∧ (l.filter fun a => !done a).Pairwise (· = ·) := by
  induction l with
  | nil => exact ⟨rfl, .nil⟩
  | cons a l ih =>
    obtain ⟨ha, hl⟩ := List.pairwise_cons.mp h
    obtain ⟨happend, heq⟩ := ih hl
    cases hd : done a with
    | true =>
      simp only [List.filter_cons, hd, if_true, Bool.not_true, Bool.false_eq_true, if_false,
        List.cons_append]
      exact ⟨by rw [happend], heq⟩
    | false =>
      -- everything after `a` is `a`
      have hall : ∀ b ∈ l, b = a := fun b hb => (ha b hb).resolve_left (by simp [hd])
      have hnone : l.filter done = [] :=
        List.filter_eq_nil_iff.mpr fun b hb => by simp [hall b hb, hd]
      rw [hnone, List.nil_append] at happend
      simp only [List.filter_cons, hd, Bool.false_eq_true, if_false, Bool.not_false, if_true,
        hnone, List.nil_append, happend]
      refine ⟨trivial, List.pairwise_cons.mpr ⟨fun b hb => (hall b hb).symm, ?_⟩⟩
      rwa [happend] at heq

theorem doneFirst_of_split (h : l.filter done ++ l.filter (fun a => !done a) = l)
    (heq : (l.filter fun a => !done a).Pairwise (· = ·)) : DoneFirst done l := by
  unfold DoneFirst
  rw [← h]
  refine List.pairwise_append.mpr ⟨?_, heq.imp fun hab => Or.inr hab.symm, ?_⟩
  · exact List.pairwise_of_forall_mem_list fun a ha _ _ => Or.inl (List.mem_filter.mp ha).2
  · intro a ha _ _
    exact Or.inl (List.mem_filter.mp ha).2

end names

/-! ## What is passed on -/

/-- The two executions of a fork saw the same output of every branch. -/
def SameOutputs (rs rs' : List (String × Bytes)) : Prop :=
  ∀ name output output', (name, output) ∈ rs → (name, output') ∈ rs' → output = output'

theorem eq_of_sameOutputs {rs' : List (String × Bytes)}
    (hnames : rs.map Prod.fst = rs'.map Prod.fst) (h : SameOutputs rs rs') : rs = rs' := by
  induction rs generalizing rs' with
  | nil => exact (List.map_eq_nil_iff.mp hnames.symm).symm
  | cons r rs ih =>
    cases rs' with
    | nil => cases hnames
    | cons r' rs' =>
      obtain ⟨hfst, hrest⟩ := List.cons.inj hnames
      have hr : r = r' := by
        refine Prod.ext hfst (h r.1 r.2 r'.2 List.mem_cons_self ?_)
        rw [hfst]
        exact List.mem_cons_self
      have htail : SameOutputs rs rs' := fun name o o' ho ho' =>
        h name o o' (List.mem_cons_of_mem _ ho) (List.mem_cons_of_mem _ ho')
      rw [hr, ih hrest htail]

theorem sameOutputs_of_value (value : String → Bytes) (names names' : List String) :
    SameOutputs (names.map fun name => (name, value name))
      (names'.map fun name => (name, value name)) := by
  have hvalue : ∀ (names : List String) name output,
      (name, output) ∈ names.map (fun name => (name, value name)) → output = value name := by
    intro names name output h
    obtain ⟨n, -, hn⟩ := List.mem_map.mp h
    cases hn
    rfl
  intro name output output' h h'
  rw [hvalue names name output h, hvalue names' name output' h']

/-- What a parallel execution of a fork passes on is what a sequential one passes on:
the input of the join, or the result of a fork without one. `parallel` and
`sequential` say which results the executions can collect. -/
def SameJoin (codec : EnvelopeCodec) (parallel sequential : List (String × Bytes) → Prop) : Prop :=
  ∀ join rs rs', parallel rs → sequential rs' → SameOutputs rs rs' →
    resolveJoin codec join rs = resolveJoin codec join rs'

variable {codec : EnvelopeCodec} {parallel sequential : List (String × Bytes) → Prop}

theorem sameJoin_of_names (names : List String) (hp : ∀ rs, parallel rs → rs.map Prod.fst = names)
    (hs : ∀ rs, sequential rs → rs.map Prod.fst = names) : SameJoin codec parallel sequential := by
  intro join rs rs' hrs hrs' hsame
  rw [eq_of_sameOutputs ((hp rs hrs).trans (hs rs' hrs').symm) hsame]

theorem ofBoxError_injective : Function.Injective RuntimeError.ofBoxError := by
  intro e e' h
  cases e <;> cases e' <;> cases h <;> rfl

/-- A codec that keeps results apart shows the join any difference. -/
theorem eq_of_sameJoin (hcodec : Function.Injective codec.encodeNamedResults)
    (h : SameJoin codec parallel sequential) {rs' : List (String × Bytes)} (hrs : parallel rs)
    (hrs' : sequential rs') (hsame : SameOutputs rs rs') : rs = rs' := by
  have hjoin := h (some (.delay "join" 0 none)) rs rs' hrs hrs' hsame
  apply hcodec
  unfold resolveJoin at hjoin
  cases he : codec.encodeNamedResults rs <;> cases he' : codec.encodeNamedResults rs'
    <;> simp only [he, he', Except.ok.injEq, Except.error.injEq, JoinResolution.continue.injEq,
      reduceCtorEq] at hjoin
  · rw [ofBoxError_injective hjoin]
  · rw [hjoin]

/-! ## Collecting the results of parallel branches -/

theorem collectOutputs_map_ok (l : List (String × Bytes)) :
    collectOutputs (l.map fun p => (p.1, .ok p.2)) = .ok l := by
  induction l with
  | nil => rfl
  | cons p l ih => simp only [List.map_cons, collectOutputs, ih, Except.bind, Except.map]

section children

variable {O : Type} {P : O → Type}
  {branches : List (String × Prog O P BranchResult BranchResult)} {f : BranchResult → Bool}
  {cs : Fin branches.length → Prog O P BranchResult BranchResult}
  {results : List (Fin branches.length × BranchResult)}

/-- The results under the names of their branches. -/
def named (branches : List (String × Prog O P BranchResult BranchResult))
    (results : List (Fin branches.length × BranchResult)) : List (String × BranchResult) :=
  results.map fun r => ((branches.get r.1).1, r.2)

/-- **The names of the collected results are a permutation of those of the branches.** -/
theorem named_perm (hj : Prog.Joined f cs results) (hf : ∀ p ∈ results, f p.2 = false) :
    ((named branches results).map Prod.fst).Perm (branches.map Prod.fst) := by
  have hperm := (hj.perm hf).map fun i => (branches.get i).1
  have hleft : (named branches results).map Prod.fst
      = (results.map Prod.fst).map fun i => (branches.get i).1 := by
    simp only [named, List.map_map, Function.comp_def]
  have hright : (List.finRange branches.length).map (fun i => (branches.get i).1)
      = branches.map Prod.fst := by
    conv_rhs => rw [← List.map_get_finRange branches, List.map_map]
    rfl
  rwa [hleft, ← hright]

/-- Outputs are collected under a permutation of the names. -/
theorem names_of_collectOutputs (hj : Prog.Joined endsNestedFork cs results)
    (h : collectOutputs (named branches results) = .ok rs) :
    (rs.map Prod.fst).Perm (branches.map Prod.fst) := by
  have hlist := collectOutputs_ok h
  have hnames : rs.map Prod.fst = (named branches results).map Prod.fst := by
    rw [hlist, List.map_map]
    rfl
  rw [hnames]
  refine named_perm hj fun p hp => ?_
  have hp' : ((branches.get p.1).1, p.2) ∈ named branches results := List.mem_map_of_mem hp
  rw [hlist] at hp'
  obtain ⟨r, -, hr⟩ := List.mem_map.mp hp'
  rw [← (Prod.mk.inj hr).2]
  rfl

/-- Branches that return at once what `value` says. -/
def prepared (value : String → Bytes) (names : List String) :
    List (String × Prog O P BranchResult BranchResult) :=
  names.map fun name => (name, .pure (.ok (value name)))

theorem prepared_names (value : String → Bytes) (names : List String) :
    (prepared (O := O) (P := P) value names).map Prod.fst = names := by
  simp [prepared, Function.comp_def]

/-- Prepared branches may finish in any rotation of their order. -/
theorem joined_prepared (hf : ∀ output, f (.ok output) = false) (value : String → Bytes)
    (names : List String) (m : Nat) :
    ∃ results, Prog.Joined f
        (fun i => ((prepared (O := O) (P := P) value names).get i).2) results
      ∧ named (prepared value names) results
        = (names.rotate m).map fun name => (name, .ok (value name)) := by
  have hmem : ∀ b ∈ prepared (O := O) (P := P) value names,
      b.2 = .pure (.ok (value b.1)) := by
    intro b hb
    obtain ⟨name, -, rfl⟩ := List.mem_map.mp hb
    rfl
  have hfst : ∀ i, ((prepared (O := O) (P := P) value names).get i).2
      = .pure (.ok (value ((prepared (O := O) (P := P) value names).get i).1)) :=
    fun i => hmem _ (List.get_mem _ i)
  let order := (List.finRange (prepared (O := O) (P := P) value names).length).rotate m
  have horder : order.Perm (List.finRange _) := List.rotate_perm _ m
  refine ⟨order.map fun i => (i, .ok (value ((prepared value names).get i).1)), ⟨?_, ?_, ?_⟩, ?_⟩
  · simp only [List.map_map, Function.comp_def, List.map_id']
    exact horder.nodup_iff.mpr (List.nodup_finRange _)
  · intro p hp
    obtain ⟨i, -, rfl⟩ := List.mem_map.mp hp
    exact hfst i
  · refine Or.inl ⟨fun i => ?_, fun p hp => ?_⟩
    · simp only [List.map_map, Function.comp_def, List.map_id']
      exact horder.mem_iff.mpr (List.mem_finRange i)
    · obtain ⟨i, -, rfl⟩ := List.mem_map.mp hp
      exact hf _
  · have hnames : order.map (fun i => ((prepared (O := O) (P := P) value names).get i).1)
        = names.rotate m := by
      conv_rhs => rw [← prepared_names (O := O) (P := P) value names,
        ← List.map_get_finRange (prepared (O := O) (P := P) value names), List.map_map,
        ← List.map_rotate]
      rfl
    rw [← hnames]
    simp only [named, List.map_map, Function.comp_def]

end children

/-! ## The async executor -/

section async

variable [Sha256] {cb : Callbacks} {delay : RetryPolicy → Nat → Duration} {E : Time → Time → Prop}

/-- The async executor, with or without spawning, can collect these results. -/
def AsyncCollects (cb : Callbacks) (delay : RetryPolicy → Nat → Duration) (E : Time → Time → Prop)
    (parallelBranches : Bool) (branches : List AsyncRun) (rs : List (String × Bytes)) : Prop :=
  ∃ w v, Prog.Reach (AsyncOp.handle cb delay) E (asyncBranches parallelBranches branches) w
    (.pure (.ok rs)) v

theorem reach_andThen_inv {α β : Type} {p : AsyncProc (Except RuntimeError α)}
    {f : α → AsyncProc (Except RuntimeError β)} {b : β} {w v : Time}
    (h : Prog.Reach (AsyncOp.handle cb delay) E (p.andThen f) w (.pure (.ok b)) v) :
    ∃ a u, Prog.Reach (AsyncOp.handle cb delay) E p w (.pure (.ok a)) u
      ∧ Prog.Reach (AsyncOp.handle cb delay) E (f a) u (.pure (.ok b)) v := by
  rcases Prog.reach_bind_inv h with ⟨p', hp, heq⟩ | ⟨r, u, hp, hr⟩
  · cases p' with
    | pure r =>
      cases r with
      | ok a => exact ⟨a, v, hp, heq ▸ .refl⟩
      | error e => cases heq
    | op o k => cases heq
    | par n fatal cs k => cases heq
  · cases r with
    | ok a => exact ⟨a, u, hp, hr⟩
    | error e => cases (Prog.reach_pure_inv hr).1

theorem names_asyncBranchesInline {branches : List AsyncRun} {w v : Time}
    (h : Prog.Reach (AsyncOp.handle cb delay) E (asyncBranchesInline branches) w
      (.pure (.ok rs)) v) :
    rs.map Prod.fst = branches.map Prod.fst := by
  induction branches generalizing rs w v with
  | nil =>
    cases (Prog.reach_pure_inv h).1
    rfl
  | cons branch branches ih =>
    obtain ⟨output, u, -, hrest⟩ := reach_andThen_inv h
    obtain ⟨rest, u', hrest', hpure⟩ := reach_andThen_inv hrest
    cases (Prog.reach_pure_inv hpure).1
    rw [List.map_cons, List.map_cons, ih hrest']

theorem names_asyncBranchesSpawned {branches : List AsyncRun} {w v : Time}
    (h : Prog.Reach (AsyncOp.handle cb delay) E (asyncBranchesSpawned branches) w
      (.pure (.ok rs)) v) :
    (rs.map Prod.fst).Perm (branches.map Prod.fst) := by
  rcases Prog.reach_par_inv (G := fun _ _ => True) (fun _ _ _ _ _ _ _ => trivial) h with
    ⟨_, heq, -⟩ | ⟨cs, results, u, hj, -, -, hr⟩
  · cases heq
  · have hcollect : collectOutputs (named branches results) = .ok rs :=
      (Prog.pure.inj (Prog.reach_pure_inv hr).1).symm
    exact names_of_collectOutputs hj hcollect

theorem asyncCollects_inline (value : String → Bytes) (names : List String) :
    AsyncCollects cb delay E false (prepared value names)
      (names.map fun name => (name, value name)) := by
  refine ⟨0, 0, ?_⟩
  have hinline : asyncBranchesInline (prepared value names)
      = .pure (.ok (names.map fun name => (name, value name))) := by
    induction names with
    | nil => rfl
    | cons name names ih =>
      change AsyncProc.andThen (asyncBranchesInline (prepared value names)) _ = _
      rw [ih]
      rfl
  change Prog.Reach _ _ (asyncBranchesInline (prepared value names)) _ _ _
  rw [hinline]
  exact .refl

/-- Spawned branches that return at once can be collected in any rotation. -/
theorem asyncCollects_spawned (value : String → Bytes) (hlen : 1 < names.length) (m : Nat) :
    AsyncCollects cb delay E true (prepared value names)
      ((names.rotate m).map fun name => (name, value name)) := by
  obtain ⟨results, hj, hnamed⟩ := joined_prepared (O := AsyncOp) (P := AsyncOp.Resp)
    (f := endsNestedFork) (fun _ => rfl) value names m
  have hspawn : asyncBranches true (prepared value names)
      = asyncBranchesSpawned (prepared value names) := by
    have hcond : (true && decide (1 < (prepared (O := AsyncOp) (P := AsyncOp.Resp)
        value names).length)) = true := by
      simpa [prepared] using hlen
    unfold asyncBranches
    rw [hcond]
    rfl
  have hcollect : collectOutputs (named (prepared value names) results)
      = .ok ((names.rotate m).map fun name => (name, value name)) := by
    rw [hnamed, ← collectOutputs_map_ok, List.map_map]
    rfl
  refine ⟨0, 0, ?_⟩
  rw [hspawn, ← hcollect]
  exact Prog.Reach.refl.step (.join hj)

/-- **Spawning is invisible exactly if the branches cannot be told apart by name.** -/
theorem async_sameJoin_iff (hcodec : Function.Injective codec.encodeNamedResults)
    (names : List String) :
    (∀ branches : List AsyncRun, branches.map Prod.fst = names →
      SameJoin codec (AsyncCollects cb delay E true branches)
        (AsyncCollects cb delay E false branches)) ↔ names.Pairwise (· = ·) := by
  constructor
  · intro h
    by_cases hlen : 1 < names.length
    · have heq := eq_of_sameJoin hcodec (h _ (prepared_names (fun _ => []) names))
        (asyncCollects_spawned _ hlen 1) (asyncCollects_inline _ names) (sameOutputs_of_value _ _ _)
      have hnames := congrArg (List.map Prod.fst) heq
      simp only [List.map_map, Function.comp_def, List.map_id'] at hnames
      exact pairwise_eq_of_rotate hnames
    · match names with
      | [] => exact .nil
      | [name] => exact List.pairwise_singleton _ _
      | _ :: _ :: _ => exact absurd (by simp) hlen
  · intro heq branches hnames
    refine sameJoin_of_names names ?_ ?_
    · rintro rs ⟨w, v, hr⟩
      unfold asyncBranches at hr
      split at hr
      · exact eq_of_perm_of_pairwise_eq (hnames ▸ names_asyncBranchesSpawned hr) heq
      · exact (names_asyncBranchesInline hr).trans hnames
    · rintro rs ⟨w, v, hr⟩
      exact (names_asyncBranchesInline hr).trans hnames

end async

/-! ## EndsWith of the checkpointing executors -/

section runs

variable {cb : Callbacks} {E : World → World → Prop} {α β : Type} {s s' s'' : WorkflowSnapshot}
  {w v u : World} {m : Exec α} {f : α → Exec β} {a : α} {b b' : β}

/-- A run of `m` that ends well. -/
def EndsWith (cb : Callbacks) (E : World → World → Prop) (m : Exec α) (s : WorkflowSnapshot)
    (w : World) (a : α) (s' : WorkflowSnapshot) (v : World) : Prop :=
  Prog.Reach (Op.handle cb) E (m s) w (.pure (.ok a, s')) v

theorem EndsWith.bind (hm : EndsWith cb E m s w a s' v) (hf : EndsWith cb E (f a) s' v b s'' u) :
    EndsWith cb E (m >>= f) s w b s'' u :=
  (Prog.reach_bind (andThen f) hm).trans hf

/-- A sequence that ends well has done so in both parts. -/
theorem EndsWith.bind_inv (h : EndsWith cb E (m >>= f) s w b s'' u) :
    ∃ a s' v, EndsWith cb E m s w a s' v ∧ EndsWith cb E (f a) s' v b s'' u := by
  have hpast : ∀ r v, Prog.Reach (Op.handle cb) E (m s) w (.pure r) v →
      Prog.Reach (Op.handle cb) E (andThen f r) v (.pure (.ok b, s'')) u →
      ∃ a s' v, EndsWith cb E m s w a s' v ∧ EndsWith cb E (f a) s' v b s'' u := by
    rintro ⟨r, s'⟩ v hm hr
    cases r with
    | ok a => exact ⟨a, s', v, hm, hr⟩
    | error e => cases (Prog.reach_pure_inv hr).1
  rcases Prog.reach_bind_inv h with ⟨p', hp, heq⟩ | ⟨r, v, hp, hr⟩
  · cases p' with
    | pure r => exact hpast r u hp (heq ▸ .refl)
    | op o k => cases heq
    | par n fatal cs k => cases heq
  · exact hpast r v hp hr

theorem EndsWith.lift_inv {p : Proc α} (h : EndsWith cb E (lift p) s w a s' v) :
    s' = s ∧ ∃ u, Prog.Reach (Op.handle cb) E p w (.pure a) u := by
  rcases Prog.reach_bind_inv h with ⟨p', hp, heq⟩ | ⟨r, u, hp, hr⟩
  · cases p' with
    | pure r =>
      cases heq
      exact ⟨rfl, v, hp⟩
    | op o k => cases heq
    | par n fatal cs k => cases heq
  · cases (Prog.reach_pure_inv hr).1
    exact ⟨rfl, u, hp⟩

theorem EndsWith.pure_inv (h : EndsWith cb E (pure b : Exec β) s w b' s' v) : b' = b ∧ s' = s := by
  cases (Prog.reach_pure_inv h).1
  exact ⟨rfl, rfl⟩

theorem EndsWith.ofExcept_inv {r : Except RuntimeError α} (h : EndsWith cb E (ofExcept r) s w a s' v) :
    r = .ok a ∧ s' = s := by
  cases (Prog.reach_pure_inv h).1
  exact ⟨rfl, rfl⟩

/-- What the wait for parallel children has collected. -/
theorem par_results {n : Nat} {fatal : BranchResult → Bool} {cs : Fin n → Proc BranchResult}
    {results : List (Fin n × BranchResult)}
    (h : Prog.Reach (Op.handle cb) E (.par n fatal cs .pure) w (.pure results) v) :
    ∃ cs' : Fin n → Proc BranchResult, Prog.Joined fatal cs' results := by
  rcases Prog.reach_par_inv (G := fun _ _ => True) (fun _ _ _ _ _ _ _ => trivial) h with
    ⟨_, heq, -⟩ | ⟨cs', results', u, hj, -, -, hr⟩
  · cases heq
  · cases (Prog.reach_pure_inv hr).1
    exact ⟨cs', hj⟩

theorem endsWith_par {n : Nat} {fatal : BranchResult → Bool} {cs : Fin n → Proc BranchResult}
    {results : List (Fin n × BranchResult)} (hj : Prog.Joined fatal cs results) :
    EndsWith cb E (lift (.par n fatal cs .pure)) s w results s w :=
  Prog.Reach.refl.step (.join hj)

theorem EndsWith.backend_inv {p : Proc (Except BackendError α)} (h : EndsWith cb E (backend p) s w a s' v) :
    s' = s := by
  rcases Prog.reach_bind_inv h with ⟨p', hp, heq⟩ | ⟨r, u, hp, hr⟩
  · cases p' with
    | pure r => exact congrArg Prod.snd (Prog.pure.inj heq)
    | op o k => cases heq
    | par n fatal cs k => cases heq
  · exact congrArg Prod.snd (Prog.pure.inj (Prog.reach_pure_inv hr).1)

theorem EndsWith.throw_inv {e : RuntimeError} : ¬ EndsWith cb E (throw e : Exec α) s w a s' v := by
  intro h
  cases (Prog.reach_pure_inv h).1

theorem EndsWith.checkGuards_inv {scope : Option TaskId}
    (h : EndsWith cb E (checkGuards scope) s w () s' v) : s' = s := by
  obtain ⟨cancelled, s₁, _, hcancel, h⟩ := h.bind_inv
  rw [hcancel.backend_inv] at h
  cases cancelled with
  | true => exact absurd h throw_inv
  | false =>
    obtain ⟨paused, s₂, _, hpause, h⟩ := h.bind_inv
    rw [hpause.backend_inv] at h
    cases paused with
    | true => exact absurd h throw_inv
    | false => exact h.pure_inv.2

theorem endsWith_pure (a : α) : EndsWith cb E (pure a) s w a s w := .refl

/-- The instance is stored and nobody has asked anything of it. -/
structure AtRest (w : World) : Prop where
  stored : w.snapshot.isSome
  cancelSignal : w.cancelSignal = none
  pauseSignal : w.pauseSignal = none

theorem endsWith_checkGuards (h : AtRest w) (scope : Option TaskId) :
    EndsWith cb E (checkGuards scope) s w () s w := by
  have hcancel : w.checkAndCancel scope = (.ok false, w) := by
    simp only [World.checkAndCancel, h.cancelSignal]
  have hpause : w.checkAndPause = (.ok false, w) := by
    simp only [World.checkAndPause, h.pauseSignal]
  have h₁ : EndsWith cb E (checkAndCancel scope) s w false s w := by
    refine (Prog.Reach.refl.step Prog.Step.op).trans ?_
    simp only [Op.handle, hcancel]
    exact .refl
  have h₂ : EndsWith cb E checkAndPause s w false s w := by
    refine (Prog.Reach.refl.step Prog.Step.op).trans ?_
    simp only [Op.handle, hpause]
    exact .refl
  exact h₁.bind (h₂.bind (endsWith_pure ()))

variable (cb E s) in
theorem endsWith_saveTaskResult (h : AtRest w) (taskId : TaskId) (output : Bytes) :
    ∃ v, AtRest v ∧ EndsWith cb E (saveTaskResult taskId output) s w () s v := by
  obtain ⟨t, ht⟩ := Option.isSome_iff_exists.mp h.stored
  have hsave : w.saveTaskResult taskId output
      = (.ok (), (w.saveTaskResult taskId output).2) := by
    simp only [World.saveTaskResult, ht]
  refine ⟨(w.saveTaskResult taskId output).2, ⟨?_, ?_, ?_⟩, ?_⟩
  · simp only [World.saveTaskResult, ht]
    rfl
  · simp only [World.saveTaskResult, ht]
    exact h.cancelSignal
  · simp only [World.saveTaskResult, ht]
    exact h.pauseSignal
  · refine (Prog.Reach.refl.step Prog.Step.op).trans ?_
    simp only [Op.handle]
    rw [hsave]
    exact .refl

variable (cb E s) in
theorem endsWith_saveSnapshot (h : AtRest w) :
    ∃ v, AtRest v ∧ EndsWith cb E saveSnapshot s w () s v :=
  ⟨(w.saveSnapshot s).2, ⟨rfl, h.cancelSignal, h.pauseSignal⟩,
    (Prog.Reach.refl.step Prog.Step.op).trans .refl⟩

end runs

/-! ## Forks inside a branch -/

/-- The computation can end well with these results. -/
def Collects (cb : Callbacks) (E : World → World → Prop) (m : Exec (List (String × Bytes)))
    (s : WorkflowSnapshot) (rs : List (String × Bytes)) : Prop :=
  ∃ w s' v, EndsWith cb E m s w rs s' v

section nested

variable {cb : Callbacks} {E : World → World → Prop} {s s' : WorkflowSnapshot} {w v : World}
  {branches : List BranchRun} {rs : List (String × Bytes)}

theorem names_executeNestedForkBranches
    (h : EndsWith cb E (executeNestedForkBranches branches) s w rs s' v) :
    (rs.map Prod.fst).Perm (branches.map Prod.fst) := by
  obtain ⟨results, s₁, _, hpar, h⟩ := h.bind_inv
  obtain ⟨-, u, hreach⟩ := hpar.lift_inv
  obtain ⟨cs, hj⟩ := par_results hreach
  exact names_of_collectOutputs hj h.ofExcept_inv.1

theorem names_executeNestedBranches (h : EndsWith cb E (executeNestedBranches branches) s w rs s' v) :
    rs.map Prod.fst = branches.map Prod.fst := by
  induction branches generalizing rs s w s' v with
  | nil =>
    rw [h.pure_inv.1]
    rfl
  | cons branch branches ih =>
    obtain ⟨output, s₁, w₁, -, h⟩ := h.bind_inv
    obtain ⟨rest, s₂, w₂, hrest, h⟩ := h.bind_inv
    rw [h.pure_inv.1, List.map_cons, List.map_cons, ih hrest]

theorem endsWith_executeNestedBranches (value : String → Bytes) (names : List String) :
    EndsWith cb E (executeNestedBranches (prepared value names)) s w
      (names.map fun name => (name, value name)) s w := by
  induction names with
  | nil => exact .refl
  | cons name names ih =>
    have hhead : EndsWith cb E (Exec.liftExcept (.pure (.ok (value name)))) s w (value name) s w :=
      .refl
    exact hhead.bind (ih.bind (endsWith_pure _))

theorem endsWith_executeNestedForkBranches (value : String → Bytes) (names : List String) (m : Nat) :
    EndsWith cb E (executeNestedForkBranches (prepared value names)) s w
      ((names.rotate m).map fun name => (name, value name)) s w := by
  obtain ⟨results, hj, hnamed⟩ := joined_prepared (O := Op) (P := Op.Resp)
    (f := endsNestedFork) (fun _ => rfl) value names m
  have hcollect : collectOutputs (named (prepared value names) results)
      = .ok ((names.rotate m).map fun name => (name, value name)) := by
    rw [hnamed, ← collectOutputs_map_ok, List.map_map]
    rfl
  refine (endsWith_par hj).bind ?_
  change Prog.Reach _ _ (.pure (collectOutputs (named (prepared value names) results), s)) _ _ _
  rw [hcollect]
  exact .refl

/-- **Inside a branch, too, only indistinguishable branches leave the order open.** -/
theorem nested_sameJoin_iff (hcodec : Function.Injective codec.encodeNamedResults)
    (names : List String) :
    (∀ branches : List BranchRun, branches.map Prod.fst = names →
      SameJoin codec (Collects cb E (executeNestedForkBranches branches) s)
        (Collects cb E (executeNestedBranches branches) s)) ↔ names.Pairwise (· = ·) := by
  constructor
  · intro h
    have w := World.fresh "" 0
    have heq := eq_of_sameJoin hcodec (h _ (prepared_names (fun _ => []) names))
      ⟨w, s, w, endsWith_executeNestedForkBranches _ names 1⟩
      ⟨w, s, w, endsWith_executeNestedBranches _ names⟩ (sameOutputs_of_value _ _ _)
    have hnames := congrArg (List.map Prod.fst) heq
    simp only [List.map_map, Function.comp_def, List.map_id'] at hnames
    exact pairwise_eq_of_rotate hnames
  · intro heq branches hnames
    refine sameJoin_of_names names ?_ ?_
    · rintro rs ⟨w, s', v, hr⟩
      exact eq_of_perm_of_pairwise_eq (hnames ▸ names_executeNestedForkBranches hr) heq
    · rintro rs ⟨w, s', v, hr⟩
      exact (names_executeNestedBranches hr).trans hnames

end nested

/-! ## Forks on the main path -/

theorem collectResults_map_ok (l : List (String × Bytes)) (o : ForkBranchOutcome) :
    collectResults (l.map fun p => (p.1, .ok p.2)) o = .ok ⟨o.results ++ l, o.maxWakeAt⟩ := by
  induction l generalizing o with
  | nil => simp [collectResults]
  | cons p l ih =>
    simp only [List.map_cons, collectResults, ForkBranchOutcome.add, Except.bind, ih,
      List.append_assoc, List.singleton_append]

section main

variable [Sha256] {cb : Callbacks} {E : World → World → Prop} {s s' : WorkflowSnapshot}
  {w v : World} {branches : List BranchRun} {outcome : ForkBranchOutcome}
  {rs : List (String × Bytes)} {id : String} {join : Option WorkflowContinuation}

/-- The branch has a recorded result. -/
def isRecorded (s : WorkflowSnapshot) (name : String) : Bool :=
  (s.getTaskResultBytes (TaskId.sha256 name)).isSome

theorem isRecorded_of_cached (h : collectCachedBranches names s = some rs) :
    ∀ name ∈ names, isRecorded s name = true := by
  obtain ⟨hnames, hall⟩ := collectCachedBranches_some h
  intro name hname
  rw [← hnames] at hname
  obtain ⟨r, hr, rfl⟩ := List.mem_map.mp hname
  simp [isRecorded, hall r hr]

/-- The recorded results of branches, in the order of declaration. -/
def cachedResults (s : WorkflowSnapshot) (branches : List BranchRun) : List (String × Bytes) :=
  branches.filterMap fun b => (s.getTaskResultBytes (TaskId.sha256 b.1)).map (b.1, ·)

/-- The branches that have to run. -/
def pendingBranches (s : WorkflowSnapshot) (branches : List BranchRun) : List BranchRun :=
  branches.filter fun b => (s.getTaskResultBytes (TaskId.sha256 b.1)).isNone

theorem names_cachedResults (s : WorkflowSnapshot) (branches : List BranchRun) :
    (cachedResults s branches).map Prod.fst = (branches.map Prod.fst).filter (isRecorded s) := by
  induction branches with
  | nil => rfl
  | cons branch branches ih =>
    unfold cachedResults at ih ⊢
    cases hr : s.getTaskResultBytes (TaskId.sha256 branch.1) with
    | none => simpa [isRecorded, hr] using ih
    | some output => simpa [isRecorded, hr] using ih

theorem names_pendingBranches (s : WorkflowSnapshot) (branches : List BranchRun) :
    (pendingBranches s branches).map Prod.fst
      = (branches.map Prod.fst).filter fun name => !isRecorded s name := by
  rw [List.filter_map]
  simp [pendingBranches, isRecorded, Function.comp_def]

theorem names_executeForkBranchesParallel
    (h : EndsWith cb E (executeForkBranchesParallel branches) s w outcome s' v)
    (hwake : outcome.maxWakeAt = none) :
    ∃ p, p.Perm ((branches.map Prod.fst).filter fun name => !isRecorded s name)
      ∧ outcome.results.map Prod.fst = (branches.map Prod.fst).filter (isRecorded s) ++ p := by
  obtain ⟨s₀, s₁, w₁, hget, h⟩ := h.bind_inv
  cases (Prog.reach_pure_inv hget).1
  obtain ⟨results, s₂, w₂, hpar, h⟩ := h.bind_inv
  obtain ⟨-, u, hreach⟩ := hpar.lift_inv
  obtain ⟨cs, hj⟩ := par_results hreach
  obtain ⟨hall, -, hcomplete⟩ := collectResults_ok h.ofExcept_inv.1
  refine ⟨(named (pendingBranches s branches) results).map Prod.fst, ?_, ?_⟩
  · rw [← names_pendingBranches]
    exact named_perm hj fun p hp => hall _ (List.mem_map_of_mem hp)
  · rw [← names_cachedResults]
    exact (hcomplete hwake).2

theorem endsWith_settleForkOutcome_inv
    (h : EndsWith cb E (settleForkOutcome id outcome join) s w rs s' v) :
    outcome.maxWakeAt = none ∧ rs = outcome.results := by
  unfold settleForkOutcome at h
  cases hwake : outcome.maxWakeAt with
  | some wakeAt =>
    -- parking ends with an error
    simp only [hwake] at h
    obtain ⟨_, _, _, -, h⟩ := h.bind_inv
    obtain ⟨_, _, _, -, h⟩ := h.bind_inv
    obtain ⟨_, _, _, -, h⟩ := h.bind_inv
    obtain ⟨_, _, _, -, h⟩ := h.bind_inv
    exact absurd h EndsWith.throw_inv
  | none =>
    simp only [hwake] at h
    obtain ⟨_, _, _, -, h⟩ := h.bind_inv
    obtain ⟨_, _, _, -, h⟩ := h.bind_inv
    exact ⟨rfl, h.pure_inv.1⟩

/-- A fork on the main path ends well with its recorded results, or with those its
branches have been collected to. -/
theorem endsWith_mainFork_inv {ex : Executor}
    (h : EndsWith cb E (mainFork ex id branches join) s w rs s' v) :
    (rs.map Prod.fst = branches.map Prod.fst
        ∧ ∀ name ∈ branches.map Prod.fst, isRecorded s name = true)
      ∨ ∃ outcome w₁ s₁ v₁, EndsWith cb E (ex.executeForkBranches branches) s w₁ outcome s₁ v₁
          ∧ outcome.maxWakeAt = none ∧ rs = outcome.results := by
  obtain ⟨_, s₁, w₁, hguard, h⟩ := h.bind_inv
  obtain ⟨s₀, s₂, w₂, hget, h⟩ := h.bind_inv
  cases (Prog.reach_pure_inv hget).1
  rw [hguard.checkGuards_inv] at h
  cases hcached : collectCachedBranches (branches.map Prod.fst) s with
  | some cached =>
    simp only [hcached] at h
    rw [h.pure_inv.1]
    exact Or.inl ⟨(collectCachedBranches_some hcached).1, isRecorded_of_cached hcached⟩
  | none =>
    simp only [hcached] at h
    obtain ⟨outcome, s₃, w₃, hrun, h⟩ := h.bind_inv
    obtain ⟨hwake, hrs⟩ := endsWith_settleForkOutcome_inv h
    exact Or.inr ⟨outcome, _, s₃, w₃, hrun, hwake, hrs⟩

/-- The runner: recorded results first, then the others as they finish. -/
theorem names_mainFork_runner {index : TaskIndex}
    (h : EndsWith cb E (mainFork (.runner index) id branches join) s w rs s' v) :
    ∃ p, p.Perm ((branches.map Prod.fst).filter fun name => !isRecorded s name)
      ∧ rs.map Prod.fst = (branches.map Prod.fst).filter (isRecorded s) ++ p := by
  rcases endsWith_mainFork_inv h with ⟨hnames, hall⟩ | ⟨outcome, _, _, _, hrun, hwake, rfl⟩
  · have hnone : (branches.map Prod.fst).filter (fun name => !isRecorded s name) = [] :=
      List.filter_eq_nil_iff.mpr fun name hname => by simp [hall name hname]
    refine ⟨[], by rw [hnone], ?_⟩
    rw [List.append_nil, hnames]
    exact (List.filter_eq_self.mpr hall).symm
  · exact names_executeForkBranchesParallel hrun hwake

theorem names_executeForkBranchesSequential
    (h : EndsWith cb E (executeForkBranchesSequential branches o) s w outcome s' v)
    (hwake : outcome.maxWakeAt = none) :
    o.maxWakeAt = none
      ∧ outcome.results.map Prod.fst = o.results.map Prod.fst ++ branches.map Prod.fst := by
  induction branches generalizing o s w with
  | nil =>
    rw [h.pure_inv.1] at hwake ⊢
    exact ⟨hwake, by simp⟩
  | cons branch branches ih =>
    obtain ⟨name, run⟩ := branch
    obtain ⟨s₀, s₁, w₁, hget, h⟩ := h.bind_inv
    cases (Prog.reach_pure_inv hget).1
    have hadd : ∀ r (o₁ : ForkBranchOutcome), o.add name r = .ok o₁ → o₁.maxWakeAt = none →
        o.maxWakeAt = none ∧ o₁.results.map Prod.fst = o.results.map Prod.fst ++ [name] := by
      intro r o₁ hr hnone
      have hcollect : collectResults [(name, r)] o = .ok o₁ := by
        simp only [collectResults, hr, Except.bind]
      exact (collectResults_ok hcollect).2.2 hnone
    have hrest : ∀ r (o₁ : ForkBranchOutcome) (t : WorkflowSnapshot) (u : World),
        o.add name r = .ok o₁ →
        EndsWith cb E (executeForkBranchesSequential branches o₁) t u outcome s' v →
        o.maxWakeAt = none ∧ outcome.results.map Prod.fst
          = o.results.map Prod.fst ++ ((name, run) :: branches).map Prod.fst := by
      intro r o₁ t u hr hrun
      obtain ⟨hnone, hnames⟩ := ih hrun
      obtain ⟨hnone₀, hhead⟩ := hadd r o₁ hr hnone
      exact ⟨hnone₀, by rw [hnames, hhead, List.map_cons, List.append_assoc]; rfl⟩
    cases hr : s.getTaskResultBytes (TaskId.sha256 name) with
    | some cached =>
      simp only [hr] at h
      obtain ⟨o₁, s₂, w₂, ho, h⟩ := h.bind_inv
      exact hrest _ o₁ _ _ ho.ofExcept_inv.1 h
    | none =>
      simp only [hr] at h
      obtain ⟨r, s₂, w₂, -, h⟩ := h.bind_inv
      obtain ⟨_, s₃, w₃, -, h⟩ := h.bind_inv
      obtain ⟨o₁, s₄, w₄, ho, h⟩ := h.bind_inv
      exact hrest r o₁ _ _ ho.ofExcept_inv.1 h

/-- The sequential executor: in the order of declaration. -/
theorem names_mainFork_callback (h : EndsWith cb E (mainFork .callback id branches join) s w rs s' v) :
    rs.map Prod.fst = branches.map Prod.fst := by
  rcases endsWith_mainFork_inv h with ⟨hnames, -⟩ | ⟨outcome, _, _, _, hrun, hwake, rfl⟩
  · exact hnames
  · exact (names_executeForkBranchesSequential hrun hwake).2

/-! ## Forks with prepared branches -/

/-- The recorded result of a branch, or nothing. -/
def resultOf (s : WorkflowSnapshot) (name : String) : Bytes :=
  (s.getTaskResultBytes (TaskId.sha256 name)).getD []

theorem resultOf_markTaskCompleted
    (hr : s.getTaskResultBytes (TaskId.sha256 name) = none) (other : String) :
    resultOf (s.markTaskCompleted (TaskId.sha256 name) []) other = resultOf s other := by
  unfold resultOf
  rw [WorkflowSnapshot.getTaskResultBytes_markTaskCompleted]
  split
  · rename_i h
    rw [h.2, hr]
    rfl
  · rfl

variable (cb E s id join) in
theorem endsWith_settleForkOutcome (h : AtRest w) (rs : List (String × Bytes)) :
    ∃ s' v, EndsWith cb E (settleForkOutcome id ⟨rs, none⟩ join) s w rs s' v := by
  have hmodify : EndsWith cb E (modify fun s => moveToJoin rs join (markResults rs s)) s w ()
      (moveToJoin rs join (markResults rs s)) w := .refl
  obtain ⟨v, -, hsave⟩ := endsWith_saveSnapshot cb E
    (moveToJoin rs join (markResults rs s)) h
  have hposition : EndsWith cb E (saveJoinPosition rs join) s w ()
      (moveToJoin rs join (markResults rs s)) v := hmodify.bind hsave
  exact ⟨_, v, (endsWith_checkGuards h none).bind (hposition.bind (endsWith_pure rs))⟩

variable (cb E s) in
theorem endsWith_executeForkBranchesSequential (h : AtRest w) (names : List String)
    (o : ForkBranchOutcome) :
    ∃ s' v, AtRest v ∧ EndsWith cb E (executeForkBranchesSequential (prepared (fun _ => []) names) o)
      s w ⟨o.results ++ names.map fun name => (name, resultOf s name), o.maxWakeAt⟩ s' v := by
  induction names generalizing s w o with
  | nil => exact ⟨s, w, h, by rw [List.map_nil, List.append_nil]; exact .refl⟩
  | cons name names ih =>
    let o₁ : ForkBranchOutcome := ⟨o.results ++ [(name, resultOf s name)], o.maxWakeAt⟩
    have hlist : o.results ++ (name :: names).map (fun name => (name, resultOf s name))
        = o₁.results ++ names.map fun name => (name, resultOf s name) := by
      rw [List.map_cons, List.append_assoc]
      rfl
    have hget : EndsWith cb E Exec.get s w s s w := .refl
    rw [hlist]
    cases hr : s.getTaskResultBytes (TaskId.sha256 name) with
    | some cached =>
      obtain ⟨s', v, hv, hrest⟩ := ih (s := s) h o₁
      have hadd : o.add name (.ok cached) = .ok o₁ := by
        simp only [ForkBranchOutcome.add, o₁, resultOf, hr, Option.getD_some]
      refine ⟨s', v, hv, hget.bind ?_⟩
      simp only [hr, hadd]
      exact hrest
    | none =>
      -- the branch returns nothing, and that is recorded
      obtain ⟨u, hu, hsave⟩ := endsWith_saveTaskResult cb E
        (s.markTaskCompleted (TaskId.sha256 name) []) h (TaskId.sha256 name) []
      obtain ⟨s', v, hv, hrest⟩ := ih (s := s.markTaskCompleted (TaskId.sha256 name) []) hu o₁
      simp only [resultOf_markTaskCompleted hr] at hrest
      have hadd : o.add name (.ok []) = .ok o₁ := by
        simp only [ForkBranchOutcome.add, o₁, resultOf, hr, Option.getD_none]
      have hrun : EndsWith cb E (lift (.pure (.ok []) : Proc BranchResult)) s w (.ok []) s w :=
        .refl
      have hmark : EndsWith cb E (modify (·.markTaskCompleted (TaskId.sha256 name) [])) s w ()
          (s.markTaskCompleted (TaskId.sha256 name) []) w := .refl
      have hrecord : EndsWith cb E (recordBranchOutput name (.ok [])) s w ()
          (s.markTaskCompleted (TaskId.sha256 name) []) u := hmark.bind hsave
      refine ⟨s', v, hv, hget.bind ?_⟩
      simp only [hr]
      refine hrun.bind (hrecord.bind ?_)
      simp only [hadd]
      exact hrest

theorem cachedResults_prepared (s : WorkflowSnapshot) (names : List String) :
    cachedResults s (prepared (fun _ => []) names)
      = (names.filter (isRecorded s)).map fun name => (name, resultOf s name) := by
  induction names with
  | nil => rfl
  | cons name names ih =>
    unfold cachedResults prepared at ih ⊢
    cases hr : s.getTaskResultBytes (TaskId.sha256 name) with
    | none => simpa [isRecorded, hr] using ih
    | some output => simpa [isRecorded, resultOf, hr] using ih

theorem pendingBranches_prepared (s : WorkflowSnapshot) (names : List String) :
    pendingBranches s (prepared (fun _ => []) names)
      = prepared (fun _ => []) (names.filter fun name => !isRecorded s name) := by
  unfold pendingBranches prepared
  rw [List.filter_map]
  simp [isRecorded, Function.comp_def]

/-- The runner can collect prepared branches in any rotation, behind the recorded ones. -/
theorem endsWith_executeForkBranchesParallel (names : List String) (m : Nat) :
    EndsWith cb E (executeForkBranchesParallel (prepared (fun _ => []) names)) s w
      ⟨(names.filter (isRecorded s) ++ (names.filter fun name => !isRecorded s name).rotate m).map
        fun name => (name, resultOf s name), none⟩ s w := by
  have horders := joined_prepared (O := Op) (P := Op.Resp) (f := endsFork) (fun _ => rfl)
    (fun _ => []) (names.filter fun name => !isRecorded s name) m
  rw [← pendingBranches_prepared] at horders
  obtain ⟨results, hj, hnamed⟩ := horders
  have hpending : ((names.filter fun name => !isRecorded s name).rotate m).map
        (fun name => (name, ([] : Bytes)))
      = ((names.filter fun name => !isRecorded s name).rotate m).map
        fun name => (name, resultOf s name) := by
    refine List.map_congr_left fun name hname => ?_
    have hnone : isRecorded s name = false := by
      simpa using (List.mem_filter.mp (List.mem_rotate.mp hname)).2
    simp only [isRecorded, Option.isSome_eq_false_iff, Option.isNone_iff_eq_none] at hnone
    simp only [resultOf, hnone, Option.getD_none]
  have hcollect : collectResults (named (pendingBranches s (prepared (fun _ => []) names)) results)
      ⟨cachedResults s (prepared (fun _ => []) names), none⟩
      = .ok ⟨(names.filter (isRecorded s)
          ++ (names.filter fun name => !isRecorded s name).rotate m).map
            fun name => (name, resultOf s name), none⟩ := by
    have hall := collectResults_map_ok
      (((names.filter fun name => !isRecorded s name).rotate m).map fun name => (name, []))
      ⟨(names.filter (isRecorded s)).map fun name => (name, resultOf s name), none⟩
    rw [List.map_map] at hall
    rw [hnamed, cachedResults_prepared, List.map_append, ← hpending]
    exact hall
  have hget : EndsWith cb E Exec.get s w s s w := .refl
  refine hget.bind ((endsWith_par hj).bind ?_)
  change Prog.Reach _ _ (.pure (collectResults
    (named (pendingBranches s (prepared (fun _ => []) names)) results)
    ⟨cachedResults s (prepared (fun _ => []) names), none⟩, s)) _ _ _
  rw [hcollect]
  exact .refl

theorem collectCachedBranches_eq_none (hname : name ∈ names)
    (hr : isRecorded s name = false) : collectCachedBranches names s = none := by
  cases hcached : collectCachedBranches names s with
  | none => rfl
  | some cached =>
    rw [isRecorded_of_cached hcached name hname] at hr
    cases hr

/-- **The runner's order is the declared one exactly if no branch that has to run is
declared before a branch of another name.** -/
theorem main_sameJoin_iff (hcodec : Function.Injective codec.encodeNamedResults)
    (index : TaskIndex) (names : List String) :
    (∀ (branches : List BranchRun) (id : String) (join : Option WorkflowContinuation),
      branches.map Prod.fst = names →
      SameJoin codec (Collects cb E (mainFork (.runner index) id branches join) s)
        (Collects cb E (mainFork .callback id branches join) s))
      ↔ DoneFirst (isRecorded s) names := by
  constructor
  · intro h
    by_cases hall : ∀ name ∈ names, isRecorded s name = true
    · exact List.pairwise_of_forall_mem_list fun name hname _ _ => Or.inl (hall name hname)
    · obtain ⟨name, hname, hr⟩ : ∃ name ∈ names, isRecorded s name = false := by
        simpa using hall
      have hnone : collectCachedBranches
          ((prepared (fun _ => []) names : List BranchRun).map Prod.fst) s = none := by
        rw [prepared_names]
        exact collectCachedBranches_eq_none hname hr
      let w : World := { World.fresh "" 0 with snapshot := some s }
      have hw : AtRest w := ⟨rfl, rfl, rfl⟩
      have hget : EndsWith cb E Exec.get s w s s w := .refl
      -- a run of the runner for each rotation of the branches that have to run
      have hrunner : ∀ m, Collects cb E
          (mainFork (.runner index) "" (prepared (fun _ => []) names) none) s
          ((names.filter (isRecorded s) ++ (names.filter fun name => !isRecorded s name).rotate m).map
            fun name => (name, resultOf s name)) := by
        intro m
        obtain ⟨s', v, hsettle⟩ := endsWith_settleForkOutcome cb E s "" none hw
          ((names.filter (isRecorded s)
            ++ (names.filter fun name => !isRecorded s name).rotate m).map
              fun name => (name, resultOf s name))
        refine ⟨w, s', v, (endsWith_checkGuards hw none).bind (hget.bind ?_)⟩
        simp only [hnone]
        exact (endsWith_executeForkBranchesParallel names m).bind hsettle
      have hcallback : Collects cb E (mainFork .callback "" (prepared (fun _ => []) names) none) s
          (names.map fun name => (name, resultOf s name)) := by
        obtain ⟨s₁, w₁, hw₁, hrun⟩ := endsWith_executeForkBranchesSequential cb E s hw names ⟨[], none⟩
        obtain ⟨s', v, hsettle⟩ := endsWith_settleForkOutcome cb E s₁ "" none hw₁
          (names.map fun name => (name, resultOf s name))
        refine ⟨w, s', v, (endsWith_checkGuards hw none).bind (hget.bind ?_)⟩
        simp only [hnone]
        exact hrun.bind hsettle
      have hnames : ∀ m, names.filter (isRecorded s)
          ++ (names.filter fun name => !isRecorded s name).rotate m = names := by
        intro m
        have heq := eq_of_sameJoin hcodec (h _ "" none (prepared_names (fun _ => []) names))
          (hrunner m) hcallback (sameOutputs_of_value _ _ _)
        simpa only [List.map_map, Function.comp_def, List.map_id'] using
          congrArg (List.map Prod.fst) heq
      refine doneFirst_of_split (by simpa using hnames 0) (pairwise_eq_of_rotate ?_)
      have h₀ := hnames 0
      rw [List.rotate_zero] at h₀
      exact List.append_cancel_left ((hnames 1).trans h₀.symm)
  · intro hdone branches id join hnames
    obtain ⟨hsplit, heq⟩ := hdone.split
    refine sameJoin_of_names names ?_ ?_
    · rintro rs ⟨w, s', v, hr⟩
      obtain ⟨p, hp, hrs⟩ := names_mainFork_runner hr
      rw [hnames] at hp hrs
      rw [hrs, eq_of_perm_of_pairwise_eq hp heq, hsplit]
    · rintro rs ⟨w, s', v, hr⟩
      exact (names_mainFork_callback hr).trans hnames

/-- **When parallel forks are schedule independent.** The async executor and the runner
pass on what the sequential executors do, in every execution with the same outputs,
exactly if: the branches of the fork have one name (for distinct names: there is at
most one branch); and on the runner's main path, where recorded results are used, no
branch that has to run is declared before a branch of another name. -/
theorem parallel_forks_declared_order_iff (hcodec : Function.Injective codec.encodeNamedResults)
    (cb : Callbacks) (E : World → World → Prop) (s : WorkflowSnapshot)
    (delay : RetryPolicy → Nat → Duration) (T : Time → Time → Prop) (index : TaskIndex)
    (names : List String) :
    ((∀ branches : List AsyncRun, branches.map Prod.fst = names →
        SameJoin codec (AsyncCollects cb delay T true branches)
          (AsyncCollects cb delay T false branches)) ↔ names.Pairwise (· = ·))
      ∧ ((∀ branches : List BranchRun, branches.map Prod.fst = names →
        SameJoin codec (Collects cb E (executeNestedForkBranches branches) s)
          (Collects cb E (executeNestedBranches branches) s)) ↔ names.Pairwise (· = ·))
      ∧ ((∀ (branches : List BranchRun) (id : String) (join : Option WorkflowContinuation),
        branches.map Prod.fst = names →
        SameJoin codec (Collects cb E (mainFork (.runner index) id branches join) s)
          (Collects cb E (mainFork .callback id branches join) s))
            ↔ names.Pairwise fun a b => isRecorded s a = true ∨ b = a) :=
  ⟨async_sameJoin_iff hcodec names, nested_sameJoin_iff hcodec names,
    main_sameJoin_iff hcodec index names⟩

end main

section sample

attribute [local instance] Sha256.packed

/-- Two branches that answer with their names, and a join that answers with its input. -/
def twoBranches : WorkflowContinuation :=
  .fork "f" [.task "a" .plain none, .task "b" .plain none] (some (.task "join" .plain none))

def namingTasks : Callbacks where
  execute name input := .ok <|
    if name = "join" then input else name.toList.map fun c => c.toNat.toUInt8
  duration _ _ := 1

/-- There is a codec that keeps results apart, and to its join a fork of two branches
shows the order in which they finish. -/
theorem parallel_forks_declared_order_two :
    ∃ codec : EnvelopeCodec, Function.Injective codec.encodeNamedResults
      ∧ ¬ ∀ branches : List AsyncRun, branches.map Prod.fst = ["a", "b"] →
          SameJoin codec (AsyncCollects namingTasks (fun _ _ => 0) (fun _ _ => False) true branches)
            (AsyncCollects namingTasks (fun _ _ => 0) (fun _ _ => False) false branches) := by
  have : Countable Char := Function.Injective.countable (fun _ _ => Char.toNat_inj.mp)
  have : Countable String := Function.Injective.countable (fun _ _ => String.toList_inj.mp)
  have : Countable UInt8 := Function.Injective.countable (fun _ _ => UInt8.toNat_inj.mp)
  obtain ⟨number, hnumber⟩ := exists_injective_nat (List (String × Bytes))
  let codec : EnvelopeCodec :=
    { EnvelopeCodec.plain with encodeNamedResults := fun rs => .ok (List.replicate (number rs) 0) }
  have hcodec : Function.Injective codec.encodeNamedResults := by
    intro rs rs' h
    have hlen := congrArg List.length (Except.ok.inj h)
    rw [List.length_replicate, List.length_replicate] at hlen
    exact hnumber hlen
  refine ⟨codec, hcodec, fun h => ?_⟩
  have hnames := (parallel_forks_declared_order_iff hcodec namingTasks (fun _ _ => False)
    (initialSnapshot "i" ⟨0⟩ [] twoBranches.firstTaskHint) (fun _ _ => 0) (fun _ _ => False)
    ⟨fun _ => none, fun _ => []⟩ ["a", "b"]).1.mp h
  exact absurd hnames (by decide)

/-- Two forks with the same two branches, one of them already recorded. -/
def secondRecorded : WorkflowSnapshot :=
  (initialSnapshot "i" ⟨0⟩ [] twoBranches.firstTaskHint).markTaskCompleted (TaskId.sha256 "b") [98]

theorem two_branches_swapped :
    (executeContinuationSync .plain namingTasks twoBranches []).toOption = some [97, 98]
      ∧ (∃ v, Prog.Reach (AsyncOp.handle namingTasks fun _ _ => 0) (fun _ _ => False)
          (executeContinuationAsync .plain twoBranches []) 0 (.pure (.ok [98, 97])) v)
      ∧ (((executeMain .callback .plain twoBranches [] secondRecorded).eval
            (Op.handle namingTasks) { World.fresh "i" 0 with snapshot := some secondRecorded }).1.1
              |>.toOption) = some [97, 98]
      ∧ (((executeMain (.runner ⟨fun _ => none, fun _ => []⟩) .plain twoBranches []
            secondRecorded).eval (Op.handle namingTasks)
              { World.fresh "i" 0 with snapshot := some secondRecorded }).1.1
                |>.toOption) = some [98, 97] := by
  refine ⟨by decide, ?_, by decide +kernel, by decide +kernel⟩
  refine ⟨_, (Prog.reach_par_order (fun i w => Prog.eval_reach _ w)
    (List.nodup_reverse.mpr (List.nodup_finRange _))
    (fun i => List.mem_reverse.mpr (List.mem_finRange i)) 0).trans (Prog.eval_reach _ _)⟩

end sample

end Sayiir
