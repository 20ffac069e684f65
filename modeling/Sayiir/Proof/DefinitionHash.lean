import Sayiir.Core.Serializable
import Sayiir.Format.Delimited

/-!
# What the definition hash distinguishes

The hash is taken over fields that stand one after the other with marks between
them, and strings are written as they are. A string that holds the mark that ends
it can therefore pass for two fields, and the longest pause of a retry policy and
fractions of a millisecond are not written at all. Everything else can be read
back: among definitions without such strings and policies, equal streams mean
equal definitions, up to what the hash leaves out on purpose.
-/

namespace Sayiir

open Delimited

namespace SerializableContinuation

variable {mark : Char} {m : Option Nat} {p : Option RetryPolicy}
  {next o o' : Option SerializableContinuation} {id : String}

/-! ## What is left out on purpose -/

mutual

/-- The continuation without priorities and tags, and with its routed branches in the
order of their keys. -/
def canonical : SerializableContinuation → SerializableContinuation
  | .task id timeoutMs retryPolicy version _ _ next =>
    .task id timeoutMs retryPolicy version none [] (canonicalNext next)
  | .fork id branches join => .fork id (canonicalBranches branches) (canonicalNext join)
  | .delay id durationMs next => .delay id durationMs (canonicalNext next)
  | .awaitSignal id signalName timeoutMs next =>
    .awaitSignal id signalName timeoutMs (canonicalNext next)
  | .branch id branches default next => .branch id (sortByKey (canonicalRoutes branches))
      (canonicalNext default) (canonicalNext next)
  | .loop id body maxIterations onMax next =>
    .loop id body.canonical maxIterations onMax (canonicalNext next)
  | .childWorkflow id child next => .childWorkflow id child.canonical (canonicalNext next)

def canonicalNext : Option SerializableContinuation → Option SerializableContinuation
  | none => none
  | some next => some next.canonical

def canonicalBranches : List SerializableContinuation → List SerializableContinuation
  | [] => []
  | c :: cs => c.canonical :: canonicalBranches cs

def canonicalRoutes :
    List (String × SerializableContinuation) → List (String × SerializableContinuation)
  | [] => []
  | (key, c) :: rs => (key, c.canonical) :: canonicalRoutes rs

end

attribute [grind =] canonical canonicalNext canonicalBranches canonicalRoutes

theorem canonicalNext_eq (o : Option SerializableContinuation) :
    canonicalNext o = o.map canonical := by
  cases o <;> rfl

theorem canonicalBranches_eq (cs : List SerializableContinuation) :
    canonicalBranches cs = cs.map canonical := by
  induction cs with
  | nil => rfl
  | cons c cs ih => simp [canonicalBranches, ih]

theorem canonicalRoutes_eq (rs : List (String × SerializableContinuation)) :
    canonicalRoutes rs = rs.map fun r => (r.1, r.2.canonical) := by
  induction rs with
  | nil => rfl
  | cons r rs ih => simp [canonicalRoutes, ih]

/-- Sorting looks only at the keys. -/
theorem sortByKey_map {α β : Type} (f : α → β) (rs : List (String × α)) :
    sortByKey (rs.map fun r => (r.1, f r.2)) = (sortByKey rs).map fun r => (r.1, f r.2) := by
  unfold sortByKey
  rw [List.map_mergeSort]
  intro a _ b _
  rfl

theorem mem_sortByKey {α : Type} (rs : List (String × α)) {r : String × α} :
    r ∈ sortByKey rs ↔ r ∈ rs :=
  (List.mergeSort_perm rs _).mem_iff

/-! ## Strings that end where their mark is -/

/-- None of these characters is in the string. -/
def free (marks : List Char) (s : String) : Bool := s.toList.all fun x => !marks.contains x

theorem notMem_of_free {marks : List Char} {s : String} (h : free marks s) :
    ∀ x ∈ s.toList, ¬ x ∈ marks := by
  intro x hx
  have := List.all_eq_true.mp h x hx
  simpa using this

/-- Nothing of the policy is left out of the hash. -/
def plainPolicy (policy : RetryPolicy) : Bool :=
  policy.maxDelay.isNone
    && decide (policy.initialDelay = Duration.fromMillis (Duration.asMillis policy.initialDelay))

/-- The key of a routed branch neither passes for the end of the table nor holds the
mark that ends it. -/
def plainKey (key : String) : Bool := free ['='] key && key.toList.head? != some '}'

mutual

/-- No string of the continuation holds a mark that could end it, and its retry
policies have no longest pause and pause for whole milliseconds. -/
def delimited : SerializableContinuation → Bool
  | .task id _ retryPolicy version _ _ next =>
    free [':', ';'] id && retryPolicy.all plainPolicy && version.all (free [';'])
      && delimitedNext next
  | .fork id branches join => free ['['] id && delimitedBranches branches && delimitedNext join
  | .delay id _ next => free [':'] id && delimitedNext next
  | .awaitSignal id signalName _ next =>
    free [':'] id && free [':', ';'] signalName && delimitedNext next
  | .branch id branches default next =>
    free ['{'] id && delimitedRoutes branches && delimitedNext default && delimitedNext next
  | .loop id body _ _ next => free [':'] id && body.delimited && delimitedNext next
  | .childWorkflow id child next => free ['{'] id && child.delimited && delimitedNext next

def delimitedNext : Option SerializableContinuation → Bool
  | none => true
  | some next => next.delimited

def delimitedBranches : List SerializableContinuation → Bool
  | [] => true
  | c :: cs => c.delimited && delimitedBranches cs

def delimitedRoutes : List (String × SerializableContinuation) → Bool
  | [] => true
  | (key, c) :: rs => plainKey key && c.delimited && delimitedRoutes rs

end

attribute [grind =] delimited delimitedNext delimitedBranches delimitedRoutes

theorem delimitedNext_iff :
    delimitedNext o ↔ ∀ n, o = some n → n.delimited := by
  cases o <;> simp [delimitedNext]

theorem delimitedBranches_iff {cs : List SerializableContinuation} :
    delimitedBranches cs ↔ ∀ c ∈ cs, c.delimited := by
  induction cs with
  | nil => simp [delimitedBranches]
  | cons c cs ih => simp [delimitedBranches, ih]

theorem delimitedRoutes_iff {rs : List (String × SerializableContinuation)} :
    delimitedRoutes rs ↔ ∀ r ∈ rs, plainKey r.1 ∧ r.2.delimited := by
  induction rs with
  | nil => simp [delimitedRoutes]
  | cons r rs ih => simp [delimitedRoutes, ih]

/-! ## Reading a field -/

section fields

variable {s t : String} {w w' : List Char}

theorem digits_injective : Function.Injective digits := by
  intro m n h
  unfold digits at h
  rw [Nat.toList_repr, Nat.toList_repr] at h
  rw [← Nat.ofDigitChars_toDigits (by decide : 1 < 10) (by decide) (n := m), h,
    Nat.ofDigitChars_toDigits (by decide) (by decide)]

theorem isDigit_of_mem_digits {n : Nat} {x : Char} (h : x ∈ digits n) : x.isDigit := by
  unfold digits at h
  rw [Nat.toList_repr] at h
  exact Nat.isDigit_of_mem_toDigits (by decide) (by decide) h

theorem mark_notMem_digits {n : Nat} (hmark : mark.isDigit = false) :
    ∀ x ∈ digits n, ¬ x = mark := by
  rintro x hx rfl
  rw [isDigit_of_mem_digits hx] at hmark
  cases hmark

/-- A string ends at its mark. -/
theorem string_mark_inj (hs : free [mark] s) (ht : free [mark] t)
    (h : s.toList ++ mark :: w = t.toList ++ mark :: w') : s = t ∧ w = w' := by
  obtain ⟨hst, -, hw⟩ := append_cons_inj (D := (· ∈ [mark])) (notMem_of_free hs)
    (notMem_of_free ht) (List.mem_singleton_self mark) (List.mem_singleton_self mark) h
  exact ⟨String.toList_inj.mp hst, hw⟩

/-- A number ends at its mark. -/
theorem digits_mark_inj {m n : Nat} (hmark : mark.isDigit = false)
    (h : digits m ++ mark :: w = digits n ++ mark :: w') : m = n ∧ w = w' := by
  obtain ⟨hmn, -, hw⟩ := append_cons_inj (D := (· = mark)) (mark_notMem_digits hmark)
    (mark_notMem_digits hmark) rfl rfl h
  exact ⟨digits_injective hmn, hw⟩

/-- A timeout is told from what follows, if that is another field of its kind. -/
theorem timeoutStream_inj {m' : Option Nat} (hw : Stops (· = ':') w)
    (hw' : Stops (· = ':') w') (ht : ¬ [':', 't'] <+: w) (ht' : ¬ [':', 't'] <+: w')
    (h : timeoutStream m ++ w = timeoutStream m' ++ w') : m = m' ∧ w = w' := by
  cases m with
  | none =>
    cases m' with
    | none => exact ⟨rfl, h⟩
    | some ms =>
      have hpre : w = [':', 't'] ++ (':' :: (digits ms ++ w')) := h
      exact absurd ⟨_, hpre.symm⟩ ht
  | some ms =>
    cases m' with
    | none =>
      have hpre : w' = [':', 't'] ++ (':' :: (digits ms ++ w)) := h.symm
      exact absurd ⟨_, hpre.symm⟩ ht'
    | some ms' =>
      have hdigits : digits ms ++ w = digits ms' ++ w' := List.append_cancel_left
        (by simpa only [timeoutStream, List.append_assoc] using h)
      obtain ⟨hms, hrest⟩ := append_inj_of_stops (mark_notMem_digits rfl)
        (mark_notMem_digits rfl) hw hw' hdigits
      exact ⟨congrArg some (digits_injective hms), hrest⟩

/-- Two policies without a longest pause that agree on what is written are equal. -/
theorem policy_ext {q q' : RetryPolicy} (hq : plainPolicy q) (hq' : plainPolicy q')
    (hretries : q.maxRetries = q'.maxRetries)
    (hdelay : Duration.asMillis q.initialDelay = Duration.asMillis q'.initialDelay)
    (hmult : q.backoffMultiplier = q'.backoffMultiplier) : q = q' := by
  simp only [plainPolicy, Bool.and_eq_true, Option.isNone_iff_eq_none, decide_eq_true_eq] at hq hq'
  obtain ⟨retries, delay, mult, pause⟩ := q
  obtain ⟨retries', delay', mult', pause'⟩ := q'
  dsimp only at *
  have hdd : delay = delay' := by rw [hq.2, hq'.2, hdelay]
  rw [hretries, hdd, hmult, hq.1, hq'.1]

/-- A version is the last field, and only told from its absence. -/
theorem versionStream_inj {v v' : Option String} (h : versionStream v = versionStream v') :
    v = v' := by
  cases v with
  | none =>
    cases v' with
    | none => rfl
    | some t => cases h
  | some s =>
    cases v' with
    | none => cases h
    | some t =>
      have hst : s.toList = t.toList := List.append_cancel_left h
      exact congrArg some (String.toList_inj.mp hst)

theorem stops_versionStream (v : Option String) : Stops (· = ':') (versionStream v) := by
  cases v with
  | none => exact stops_nil
  | some v => exact stops_cons rfl

theorem stops_timeoutStream (m : Option Nat) (hw : Stops (· = ':') w) :
    Stops (· = ':') (timeoutStream m ++ w) := by
  cases m with
  | none => exact hw
  | some m => exact stops_cons rfl

theorem no_retry_versionStream (v : Option String) : ¬ [':', 'r'] <+: versionStream v := by
  cases v with
  | none => decide
  | some v =>
    rintro ⟨w, hw⟩
    cases hw

theorem semicolon_notMem_timeoutStream (m : Option Nat) : ';' ∉ timeoutStream m := by
  cases m with
  | none => exact List.not_mem_nil
  | some m =>
    intro h
    rcases List.mem_append.mp h with h | h
    · revert h
      decide
    · exact mark_notMem_digits rfl _ h rfl

/-- The name and the timeout of a signal wait are read off. -/
theorem signalStream_inj {m' : Option Nat} (hs : free [':', ';'] s) (ht : free [':', ';'] t)
    (h : s.toList ++ (timeoutStream m ++ ';' :: w) = t.toList ++ (timeoutStream m' ++ ';' :: w')) :
    s = t ∧ m = m' ∧ w = w' := by
  have hmark : ∀ {u : String} {k : Option Nat}, free [':', ';'] u →
      ∀ x ∈ u.toList ++ timeoutStream k, ¬ x = ';' := by
    rintro u k hu x hx rfl
    rcases List.mem_append.mp hx with hx | hx
    · exact notMem_of_free hu _ hx (by decide)
    · exact semicolon_notMem_timeoutStream k hx
  rw [← List.append_assoc, ← List.append_assoc] at h
  obtain ⟨hfields, -, hw⟩ := append_cons_inj (D := (· = ';')) (hmark hs) (hmark ht) rfl rfl h
  obtain ⟨hst, htimeout⟩ := append_inj_of_stops (D := (· = ':'))
    (fun x hx hc => notMem_of_free hs x hx (by simp [hc]))
    (fun x hx hc => notMem_of_free ht x hx (by simp [hc]))
    (by simpa using stops_timeoutStream m stops_nil)
    (by simpa using stops_timeoutStream m' stops_nil) hfields
  obtain ⟨hm, -⟩ := timeoutStream_inj stops_nil stops_nil (by decide) (by decide)
    (congrArg (· ++ []) htimeout)
  exact ⟨String.toList_inj.mp hst, hm, hw⟩

/-- The policy of a loop ends at the brace. -/
theorem display_mark_inj {p q : MaxIterationsPolicy}
    (h : p.display ++ '{' :: w = q.display ++ '{' :: w') : p = q ∧ w = w' := by
  cases p <;> cases q
  · exact ⟨rfl, (List.cons.inj (List.append_cancel_left h)).2⟩
  · cases h
  · cases h
  · exact ⟨rfl, (List.cons.inj (List.append_cancel_left h)).2⟩

variable [FloatDisplay]

/-- A retry policy is told from what follows, except for what is not written of it. -/
theorem retryStream_inj {p' : Option RetryPolicy} (hp : p.all plainPolicy)
    (hp' : p'.all plainPolicy) (hw : Stops (· = ':') w) (hw' : Stops (· = ':') w')
    (hr : ¬ [':', 'r'] <+: w) (hr' : ¬ [':', 'r'] <+: w')
    (h : retryStream p ++ w = retryStream p' ++ w') : p = p' ∧ w = w' := by
  cases p with
  | none =>
    cases p' with
    | none => exact ⟨rfl, h⟩
    | some q =>
      have hpre : w = [':', 'r'] ++ _ := h
      exact absurd ⟨_, hpre.symm⟩ hr
  | some q =>
    cases p' with
    | none =>
      have hpre : w' = [':', 'r'] ++ _ := h.symm
      exact absurd ⟨_, hpre.symm⟩ hr'
    | some q' =>
      have hfields : digits q.maxRetries ++ ':' :: (digits (Duration.asMillis q.initialDelay)
            ++ ':' :: (FloatDisplay.display q.backoffMultiplier ++ w))
          = digits q'.maxRetries ++ ':' :: (digits (Duration.asMillis q'.initialDelay)
            ++ ':' :: (FloatDisplay.display q'.backoffMultiplier ++ w')) :=
        List.append_cancel_left (by
          simpa only [retryStream, List.append_assoc, List.cons_append] using h)
      obtain ⟨hretries, hfields⟩ := digits_mark_inj rfl hfields
      obtain ⟨hdelay, hfields⟩ := digits_mark_inj rfl hfields
      obtain ⟨hmult, hrest⟩ := append_inj_of_stops
        (fun x hx hc => FloatDisplay.colon_notMem _ (hc ▸ hx))
        (fun x hx hc => FloatDisplay.colon_notMem _ (hc ▸ hx)) hw hw' hfields
      exact ⟨congrArg some (policy_ext hp hp' hretries hdelay
        (FloatDisplay.display_injective hmult)), hrest⟩

theorem stops_retryStream (p : Option RetryPolicy) (v : Option String) :
    Stops (· = ':') (retryStream p ++ versionStream v) := by
  cases p with
  | none => exact stops_versionStream v
  | some p => exact stops_cons rfl

theorem no_timeout_retryStream (p : Option RetryPolicy) (v : Option String) :
    ¬ [':', 't'] <+: retryStream p ++ versionStream v := by
  rintro ⟨w, hw⟩
  cases p with
  | none =>
    cases v with
    | none => cases hw
    | some v => cases hw
  | some p => cases hw

/-- The fields of a task are read back from what is written before its semicolon. -/
theorem taskStream_inj {m' : Option Nat} {p' : Option RetryPolicy} {v v' : Option String}
    (hs : free [':', ';'] s) (ht : free [':', ';'] t) (hp : p.all plainPolicy)
    (hp' : p'.all plainPolicy)
    (h : s.toList ++ (timeoutStream m ++ (retryStream p ++ versionStream v))
      = t.toList ++ (timeoutStream m' ++ (retryStream p' ++ versionStream v'))) :
    s = t ∧ m = m' ∧ p = p' ∧ v = v' := by
  obtain ⟨hst, h⟩ := append_inj_of_stops (fun x hx hc => notMem_of_free hs x hx (by simp [hc]))
    (fun x hx hc => notMem_of_free ht x hx (by simp [hc]))
    (stops_timeoutStream m (stops_retryStream p v))
    (stops_timeoutStream m' (stops_retryStream p' v')) h
  obtain ⟨hm, h⟩ := timeoutStream_inj (stops_retryStream p v) (stops_retryStream p' v')
    (no_timeout_retryStream p v) (no_timeout_retryStream p' v') h
  obtain ⟨hpp, h⟩ := retryStream_inj hp hp' (stops_versionStream v) (stops_versionStream v')
    (no_retry_versionStream v) (no_retry_versionStream v') h
  exact ⟨String.toList_inj.mp hst, hm, hpp, versionStream_inj h⟩

theorem semicolon_notMem_retryStream (p : Option RetryPolicy) : ';' ∉ retryStream p := by
  cases p with
  | none => exact List.not_mem_nil
  | some p =>
    have hd : ∀ n, ';' ∉ digits n := fun n h => mark_notMem_digits rfl _ h rfl
    have hf := FloatDisplay.semicolon_notMem p.backoffMultiplier
    simp [retryStream, hd, hf]

/-- A task is written without a semicolon up to the one that ends it. -/
theorem semicolon_notMem_taskStream {v : Option String}
    (hs : free [':', ';'] s) (hv : v.all (free [';'])) :
    ∀ x ∈ s.toList ++ (timeoutStream m ++ (retryStream p ++ versionStream v)), ¬ x = ';' := by
  rintro x hx rfl
  simp only [List.mem_append] at hx
  rcases hx with hx | hx | hx | hx
  · exact notMem_of_free hs _ hx (by decide)
  · exact semicolon_notMem_timeoutStream m hx
  · exact semicolon_notMem_retryStream p hx
  · cases v with
    | none => cases hx
    | some v =>
      rcases List.mem_append.mp hx with hx | hx
      · revert hx
        decide
      · exact notMem_of_free hv _ hx (by decide)

end fields

/-! ## Reading a tree -/

section trees

/-- What can follow a continuation. -/
def Follow (x : Char) : Prop := x = ',' ∨ x = ';' ∨ x = '}'

theorem not_follow_of_mem {x : Char} (h : x ∈ ['T', 'F', 'D', 'S', 'B', 'L', 'C']) :
    ¬ Follow x := by
  rintro (rfl | rfl | rfl) <;> exact absurd h (by decide)

variable [FloatDisplay]

/-- A continuation begins with the letter of its first node. -/
theorem exists_stream_eq (c : SerializableContinuation) :
    ∃ x w, c.stream = x :: w ∧ x ∈ ['T', 'F', 'D', 'S', 'B', 'L', 'C'] := by
  cases c <;> exact ⟨_, _, rfl, by decide⟩

theorem streamNext_eq (o : Option SerializableContinuation) :
    streamNext o = o.elim [] fun c => [] ++ c.stream := by
  cases o <;> rfl

theorem streamJoin_eq (o : Option SerializableContinuation) :
    streamJoin o = o.elim [] fun c => "J:".toList ++ c.stream := by
  cases o <;> rfl

theorem streamDefault_eq (o : Option SerializableContinuation) :
    streamDefault o = o.elim [] fun c => "_=>".toList ++ c.stream := by
  cases o <;> rfl

theorem streamBranches_eq (cs : List SerializableContinuation) :
    streamBranches cs = cs.flatMap fun c => c.stream ++ [','] := by
  induction cs with
  | nil => rfl
  | cons c cs ih => rw [streamBranches, List.flatMap_cons, ih]

/-- The code of a routed branch. -/
def routeStream (r : String × SerializableContinuation) : List Char :=
  r.1.toList ++ ("=>".toList ++ (r.2.stream ++ ",".toList))

theorem streamRoutes_eq (rs : List (String × SerializableContinuation)) :
    (sortByKey (streamRoutes rs)).flatMap
        (fun r => r.1.toList ++ ("=>".toList ++ (r.2 ++ ",".toList)))
      = (sortByKey rs).flatMap routeStream := by
  have hmap : streamRoutes rs = rs.map fun r => (r.1, r.2.stream) := by
    induction rs with
    | nil => rfl
    | cons r rs ih => simp [streamRoutes, ih]
  rw [hmap, sortByKey_map, List.flatMap_map]
  rfl

/-- A delimited continuation can be read off the front of a stream. -/
abbrev Readable (c : SerializableContinuation) : Prop :=
  Separates (fun c => c.delimited = true) (Stops Follow) stream canonical c

variable {r r' : List Char}

section optional

variable (h : ∀ n, o = some n → n.delimited → n.Readable) (ho : delimitedNext o)
  (ho' : delimitedNext o') (hr : Stops Follow r) (hr' : Stops Follow r')
include h ho ho' hr hr'

/-- An optional continuation is read off, if what announces it cannot follow it. -/
theorem optional_inj {pre : List Char}
    (hpre : ∀ c : SerializableContinuation, ∃ x w, pre ++ c.stream = x :: w ∧ ¬ Follow x)
    (heq : (o.elim [] fun c => pre ++ c.stream) ++ r = (o'.elim [] fun c => pre ++ c.stream) ++ r') :
    canonicalNext o = canonicalNext o' ∧ r = r' := by
  rw [delimitedNext_iff] at ho ho'
  rw [canonicalNext_eq, canonicalNext_eq]
  refine Separates.option (fun n hn c' hc' r r' hr hr' heq => ?_) (fun c _ => hpre c) ho o' ho' r r'
    hr hr' heq
  rw [List.append_assoc, List.append_assoc] at heq
  exact h n hn (ho n hn) c' hc' r r' hr hr' (List.append_cancel_left heq)

theorem streamNext_inj (heq : streamNext o ++ r = streamNext o' ++ r') :
    canonicalNext o = canonicalNext o' ∧ r = r' := by
  rw [streamNext_eq, streamNext_eq] at heq
  refine optional_inj h ho ho' hr hr' (fun c => ?_) heq
  obtain ⟨x, w, hx, hmem⟩ := exists_stream_eq c
  exact ⟨x, w, hx, not_follow_of_mem hmem⟩

theorem streamJoin_inj (heq : streamJoin o ++ r = streamJoin o' ++ r') :
    canonicalNext o = canonicalNext o' ∧ r = r' := by
  rw [streamJoin_eq, streamJoin_eq] at heq
  exact optional_inj h ho ho' hr hr' (fun c => ⟨'J', _, rfl, by unfold Follow; decide⟩) heq

theorem streamDefault_inj (heq : streamDefault o ++ r = streamDefault o' ++ r') :
    canonicalNext o = canonicalNext o' ∧ r = r' := by
  rw [streamDefault_eq, streamDefault_eq] at heq
  exact optional_inj h ho ho' hr hr' (fun c => ⟨'_', _, rfl, by unfold Follow; decide⟩) heq

end optional

/-- The branches of a fork are read off. -/
theorem streamBranches_inj {cs cs' : List SerializableContinuation}
    (h : ∀ c ∈ cs, c.delimited → c.Readable)
    (hcs : delimitedBranches cs) (hcs' : delimitedBranches cs')
    (heq : streamBranches cs ++ ']' :: r = streamBranches cs' ++ ']' :: r') :
    canonicalBranches cs = canonicalBranches cs' ∧ r = r' := by
  rw [streamBranches_eq, streamBranches_eq] at heq
  rw [canonicalBranches_eq, canonicalBranches_eq]
  rw [delimitedBranches_iff] at hcs hcs'
  have hlist := Separates.list (D := (· = ']'))
    (fun c hc => (h c hc (hcs c hc)).marked ',' fun r => stops_cons (.inl rfl)) ?_ hcs cs' hcs' _ _
    (stops_cons rfl) (stops_cons rfl) heq
  · exact ⟨hlist.1, (List.cons.inj hlist.2).2⟩
  · intro c _
    obtain ⟨x, w, hx, hmem⟩ := exists_stream_eq c
    refine ⟨x, w ++ [','], by rw [hx]; rfl, ?_⟩
    rintro rfl
    revert hmem
    decide

/-- A routed branch is read off, whatever follows it. -/
theorem separates_routeStream {route : String × SerializableContinuation}
    (h : route.2.Readable) (hkey : plainKey route.1) :
    Separates (fun r : String × SerializableContinuation => plainKey r.1 ∧ r.2.delimited)
      (fun _ => True) routeStream (fun r => (r.1, r.2.canonical)) route := by
  rintro route' ⟨hkey', hdel⟩ r r' - - heq
  have hword : ∀ (s : SerializableContinuation × String) w,
      routeStream (s.2, s.1) ++ w = s.2.toList ++ '=' :: '>' :: (s.1.stream ++ ',' :: w) := by
    intro s w
    simp [routeStream]
  rw [hword (route.2, route.1), hword (route'.2, route'.1)] at heq
  simp only [plainKey, Bool.and_eq_true] at hkey hkey'
  obtain ⟨hk, heq⟩ := string_mark_inj hkey.1 hkey'.1 heq
  obtain ⟨hc, hrest⟩ := h route'.2 hdel _ _ (stops_cons (.inl rfl)) (stops_cons (.inl rfl))
    (List.cons.inj heq).2
  exact ⟨Prod.ext hk hc, (List.cons.inj hrest).2⟩

/-- The routed branches of a table are read off, in the order of their keys. -/
theorem streamRoutes_inj {rs rs' : List (String × SerializableContinuation)}
    (h : ∀ p ∈ rs, p.2.delimited → p.2.Readable) (hrs : delimitedRoutes rs) (hrs' : delimitedRoutes rs')
    (heq : (sortByKey rs).flatMap routeStream ++ '}' :: r
      = (sortByKey rs').flatMap routeStream ++ '}' :: r') :
    sortByKey (canonicalRoutes rs) = sortByKey (canonicalRoutes rs') ∧ r = r' := by
  rw [delimitedRoutes_iff] at hrs hrs'
  rw [canonicalRoutes_eq, canonicalRoutes_eq, sortByKey_map, sortByKey_map]
  simp only [← mem_sortByKey rs, ← mem_sortByKey rs'] at h hrs hrs'
  have hlist := Separates.list (D := (· = '}'))
    (fun p hp => separates_routeStream (h p hp (hrs p hp).2) (hrs p hp).1) ?_ hrs (sortByKey rs')
    hrs' _ _ (stops_cons rfl) (stops_cons rfl) heq
  · exact ⟨hlist.1, (List.cons.inj hlist.2).2⟩
  · rintro ⟨key, c⟩ ⟨hkey, -⟩
    simp only [plainKey, Bool.and_eq_true, bne_iff_ne] at hkey
    cases hk : key.toList with
    | nil =>
      refine ⟨'=', '>' :: (c.stream ++ [',']), ?_, by decide⟩
      simp [routeStream, hk]
    | cons x w =>
      refine ⟨x, w ++ ("=>".toList ++ (c.stream ++ ",".toList)), by simp [routeStream, hk], ?_⟩
      rintro rfl
      exact hkey.2 (by rw [hk]; rfl)

/-- The letter with which a node begins. -/
def letter : SerializableContinuation → Char
  | .task .. => 'T'
  | .fork .. => 'F'
  | .delay .. => 'D'
  | .awaitSignal .. => 'S'
  | .branch .. => 'B'
  | .loop .. => 'L'
  | .childWorkflow .. => 'C'

theorem head?_stream (c : SerializableContinuation) : c.stream.head? = some c.letter := by
  cases c <;> rfl

theorem letter_eq {c c' : SerializableContinuation} (h : c.stream ++ r = c'.stream ++ r') :
    c.letter = c'.letter := by
  have hhead := congrArg List.head? h
  rw [List.head?_append, List.head?_append, head?_stream, head?_stream] at hhead
  exact Option.some.inj hhead

theorem readable_task {timeoutMs : Option Nat} {retryPolicy : Option RetryPolicy}
    {version : Option String} {priority : Option UInt8} {tags : List String}
    (ih : ∀ n, next = some n → n.delimited → n.Readable)
    (h : (task id timeoutMs retryPolicy version priority tags next).delimited) :
    (task id timeoutMs retryPolicy version priority tags next).Readable := by
  simp only [delimited, Bool.and_eq_true] at h
  obtain ⟨⟨⟨hid, hpolicy⟩, hversion⟩, hnext⟩ := h
  intro c' hc' r r' hr hr' heq
  have hletter := letter_eq heq
  cases c' with
  | task id' timeoutMs' retryPolicy' version' priority' tags' next' =>
    simp only [delimited, Bool.and_eq_true] at hc'
    obtain ⟨⟨⟨hid', hpolicy'⟩, hversion'⟩, hnext'⟩ := hc'
    simp only [stream, List.append_assoc, List.cons_append, List.append_cancel_left_eq] at heq
    simp only [← List.append_assoc] at heq
    obtain ⟨hfields, -, hsucc⟩ := append_cons_inj (D := (· = ';'))
      (by simpa only [List.append_assoc] using semicolon_notMem_taskStream hid hversion)
      (by simpa only [List.append_assoc] using semicolon_notMem_taskStream hid' hversion')
      rfl rfl heq
    simp only [List.append_assoc] at hfields
    obtain ⟨hname, hms, hp, hv⟩ := taskStream_inj hid hid' hpolicy hpolicy' hfields
    obtain ⟨hn, hrest⟩ := streamNext_inj ih hnext hnext' hr hr' hsucc
    exact ⟨by simp only [canonical, hname, hms, hp, hv, hn], hrest⟩
  | _ => simp [letter] at hletter

theorem readable_fork {branches : List SerializableContinuation}
    {join : Option SerializableContinuation} (ihb : ∀ b ∈ branches, b.delimited → b.Readable)
    (ihj : ∀ n, join = some n → n.delimited → n.Readable) (h : (fork id branches join).delimited) :
    (fork id branches join).Readable := by
  simp only [delimited, Bool.and_eq_true] at h
  obtain ⟨⟨hid, hbranches⟩, hjoin⟩ := h
  intro c' hc' r r' hr hr' heq
  have hletter := letter_eq heq
  cases c' with
  | fork id' branches' join' =>
    simp only [delimited, Bool.and_eq_true] at hc'
    obtain ⟨⟨hid', hbranches'⟩, hjoin'⟩ := hc'
    simp only [stream, List.append_assoc, List.cons_append, List.append_cancel_left_eq] at heq
    obtain ⟨hname, hword⟩ := string_mark_inj hid hid' heq
    obtain ⟨hb, hword⟩ := streamBranches_inj ihb hbranches hbranches' hword
    obtain ⟨hj, hrest⟩ := streamJoin_inj ihj hjoin hjoin' hr hr' hword
    exact ⟨by simp only [canonical, hname, hb, hj], hrest⟩
  | _ => simp [letter] at hletter

theorem readable_delay {durationMs : Nat}
    (ih : ∀ n, next = some n → n.delimited → n.Readable) (h : (delay id durationMs next).delimited) :
    (delay id durationMs next).Readable := by
  simp only [delimited, Bool.and_eq_true] at h
  obtain ⟨hid, hnext⟩ := h
  intro c' hc' r r' hr hr' heq
  have hletter := letter_eq heq
  cases c' with
  | delay id' durationMs' next' =>
    simp only [delimited, Bool.and_eq_true] at hc'
    obtain ⟨hid', hnext'⟩ := hc'
    simp only [stream, List.append_assoc, List.cons_append, List.append_cancel_left_eq] at heq
    obtain ⟨hname, hword⟩ := string_mark_inj hid hid' heq
    obtain ⟨hms, hword⟩ := digits_mark_inj rfl hword
    obtain ⟨hn, hrest⟩ := streamNext_inj ih hnext hnext' hr hr' hword
    exact ⟨by simp only [canonical, hname, hms, hn], hrest⟩
  | _ => simp [letter] at hletter

theorem readable_awaitSignal {signalName : String} {timeoutMs : Option Nat}
    (ih : ∀ n, next = some n → n.delimited → n.Readable)
    (h : (awaitSignal id signalName timeoutMs next).delimited) :
    (awaitSignal id signalName timeoutMs next).Readable := by
  simp only [delimited, Bool.and_eq_true] at h
  obtain ⟨⟨hid, hsignal⟩, hnext⟩ := h
  intro c' hc' r r' hr hr' heq
  have hletter := letter_eq heq
  cases c' with
  | awaitSignal id' signalName' timeoutMs' next' =>
    simp only [delimited, Bool.and_eq_true] at hc'
    obtain ⟨⟨hid', hsignal'⟩, hnext'⟩ := hc'
    simp only [stream, List.append_assoc, List.cons_append, List.append_cancel_left_eq] at heq
    obtain ⟨hname, hword⟩ := string_mark_inj hid hid' heq
    obtain ⟨hs, hms, hword⟩ := signalStream_inj hsignal hsignal' hword
    obtain ⟨hn, hrest⟩ := streamNext_inj ih hnext hnext' hr hr' hword
    exact ⟨by simp only [canonical, hname, hs, hms, hn], hrest⟩
  | _ => simp [letter] at hletter

theorem readable_branch {branches : List (String × SerializableContinuation)}
    {default : Option SerializableContinuation} (ihb : ∀ p ∈ branches, p.2.delimited → p.2.Readable)
    (ihd : ∀ n, default = some n → n.delimited → n.Readable) (ihn : ∀ n, next = some n → n.delimited → n.Readable)
    (h : (branch id branches default next).delimited) :
    (branch id branches default next).Readable := by
  simp only [delimited, Bool.and_eq_true] at h
  obtain ⟨⟨⟨hid, hbranches⟩, hdefault⟩, hnext⟩ := h
  intro c' hc' r r' hr hr' heq
  have hletter := letter_eq heq
  cases c' with
  | branch id' branches' default' next' =>
    simp only [delimited, Bool.and_eq_true] at hc'
    obtain ⟨⟨⟨hid', hbranches'⟩, hdefault'⟩, hnext'⟩ := hc'
    simp only [stream, streamRoutes_eq, List.append_assoc, List.cons_append,
      List.append_cancel_left_eq] at heq
    have hsemicolon : ∀ w, Stops Follow (';' :: w) := fun w => stops_cons (.inr (.inl rfl))
    obtain ⟨hname, hword⟩ := string_mark_inj hid hid' heq
    obtain ⟨hb, hword⟩ := streamRoutes_inj ihb hbranches hbranches' hword
    obtain ⟨hd, hword⟩ := streamDefault_inj ihd hdefault hdefault' (hsemicolon _)
      (hsemicolon _) hword
    obtain ⟨hn, hrest⟩ := streamNext_inj ihn hnext hnext' hr hr' (List.cons.inj hword).2
    exact ⟨by simp only [canonical, hname, hb, hd, hn], hrest⟩
  | _ => simp [letter] at hletter

theorem readable_loop {body : SerializableContinuation} {maxIterations : Nat}
    {onMax : MaxIterationsPolicy} (ihb : body.delimited → body.Readable) (ihn : ∀ n, next = some n → n.delimited → n.Readable)
    (h : (loop id body maxIterations onMax next).delimited) :
    (loop id body maxIterations onMax next).Readable := by
  simp only [delimited, Bool.and_eq_true] at h
  obtain ⟨⟨hid, hbody⟩, hnext⟩ := h
  intro c' hc' r r' hr hr' heq
  have hletter := letter_eq heq
  cases c' with
  | loop id' body' maxIterations' onMax' next' =>
    simp only [delimited, Bool.and_eq_true] at hc'
    obtain ⟨⟨hid', hbody'⟩, hnext'⟩ := hc'
    simp only [stream, List.append_assoc, List.cons_append, List.append_cancel_left_eq] at heq
    have hbrace : ∀ w, Stops Follow ('}' :: w) := fun w => stops_cons (.inr (.inr rfl))
    obtain ⟨hname, hword⟩ := string_mark_inj hid hid' heq
    obtain ⟨hmax, hword⟩ := digits_mark_inj rfl hword
    obtain ⟨hpolicy, hword⟩ := display_mark_inj hword
    obtain ⟨hb, hword⟩ := ihb hbody body' hbody' _ _ (hbrace _) (hbrace _) hword
    obtain ⟨hn, hrest⟩ := streamNext_inj ihn hnext hnext' hr hr'
      (List.cons.inj (List.cons.inj hword).2).2
    exact ⟨by simp only [canonical, hname, hmax, hpolicy, hb, hn], hrest⟩
  | _ => simp [letter] at hletter

theorem readable_childWorkflow {child : SerializableContinuation} (ihc : child.delimited → child.Readable)
    (ihn : ∀ n, next = some n → n.delimited → n.Readable) (h : (childWorkflow id child next).delimited) :
    (childWorkflow id child next).Readable := by
  simp only [delimited, Bool.and_eq_true] at h
  obtain ⟨⟨hid, hchild⟩, hnext⟩ := h
  intro c' hc' r r' hr hr' heq
  have hletter := letter_eq heq
  cases c' with
  | childWorkflow id' child' next' =>
    simp only [delimited, Bool.and_eq_true] at hc'
    obtain ⟨⟨hid', hchild'⟩, hnext'⟩ := hc'
    simp only [stream, List.append_assoc, List.cons_append, List.append_cancel_left_eq] at heq
    have hbrace : ∀ w, Stops Follow ('}' :: w) := fun w => stops_cons (.inr (.inr rfl))
    obtain ⟨hname, hword⟩ := string_mark_inj hid hid' heq
    obtain ⟨hc, hword⟩ := ihc hchild child' hchild' _ _ (hbrace _) (hbrace _) hword
    obtain ⟨hn, hrest⟩ := streamNext_inj ihn hnext hnext' hr hr'
      (List.cons.inj (List.cons.inj hword).2).2
    exact ⟨by simp only [canonical, hname, hc, hn], hrest⟩
  | _ => simp [letter] at hletter

/-- A delimited continuation can be read off the front of a stream. By induction on
the tree: the first letter tells the node, its fields end at their marks, and what
they contain is read off by the hypotheses. -/
theorem readable_of_delimited (c : SerializableContinuation) (h : c.delimited) : c.Readable := by
  induction c using SerializableContinuation.induct with
  | task id timeoutMs retryPolicy version priority tags next ih => exact readable_task ih h
  | fork id branches join ihb ihj => exact readable_fork ihb ihj h
  | delay id durationMs next ih => exact readable_delay ih h
  | awaitSignal id signalName timeoutMs next ih => exact readable_awaitSignal ih h
  | branch id branches default next ihb ihd ihn => exact readable_branch ihb ihd ihn h
  | loop id body maxIterations onMax next ihb ihn => exact readable_loop ihb ihn h
  | childWorkflow id child next ihc ihn => exact readable_childWorkflow ihc ihn h

/-! ## What is left out does not matter -/

omit [FloatDisplay] in
theorem sortByKey_sortByKey {α : Type} (rs : List (String × α)) :
    sortByKey (sortByKey rs) = sortByKey rs := by
  unfold sortByKey
  refine List.mergeSort_of_pairwise (List.pairwise_mergeSort ?_ ?_ rs)
  · intro a b c hab hbc
    simp only [decide_eq_true_eq] at *
    exact String.le_trans hab hbc
  · intro a b
    simpa using String.le_total a.1 b.1

/-- Priorities, tags and the order of routed branches do not change the stream. -/
theorem stream_canonical (c : SerializableContinuation) : c.canonical.stream = c.stream := by
  have hnext : ∀ o : Option SerializableContinuation,
      (∀ n, o = some n → n.canonical.stream = n.stream) →
        streamNext (canonicalNext o) = streamNext o
          ∧ streamJoin (canonicalNext o) = streamJoin o
          ∧ streamDefault (canonicalNext o) = streamDefault o := by
    intro o ho
    cases o with
    | none => exact ⟨rfl, rfl, rfl⟩
    | some n =>
      have hn := ho n rfl
      simp only [canonicalNext, streamNext, streamJoin, streamDefault, hn, and_self]
  induction c using SerializableContinuation.induct with
  | task id timeoutMs retryPolicy version priority tags next ih =>
    simp only [canonical, stream, (hnext next ih).1]
  | delay id durationMs next ih => simp only [canonical, stream, (hnext next ih).1]
  | awaitSignal id signalName timeoutMs next ih =>
    simp only [canonical, stream, (hnext next ih).1]
  | fork id branches join ihb ihj =>
    have hb : streamBranches (canonicalBranches branches) = streamBranches branches := by
      rw [canonicalBranches_eq, streamBranches_eq, streamBranches_eq, List.flatMap_map]
      exact List.flatMap_congr fun c hc => by rw [ihb c hc]
    simp only [canonical, stream, hb, (hnext join ihj).2.1]
  | branch id branches default next ihb ihd ihn =>
    have hb : (sortByKey (sortByKey (canonicalRoutes branches))).flatMap routeStream
        = (sortByKey branches).flatMap routeStream := by
      rw [sortByKey_sortByKey, canonicalRoutes_eq, sortByKey_map, List.flatMap_map]
      refine List.flatMap_congr fun p hp => ?_
      simp only [routeStream, ihb p ((mem_sortByKey _).mp hp)]
    simp only [canonical, stream, streamRoutes_eq, hb, (hnext default ihd).2.2,
      (hnext next ihn).1]
  | loop id body maxIterations onMax next ihb ihn =>
    simp only [canonical, stream, ihb, (hnext next ihn).1]
  | childWorkflow id child next ihc ihn =>
    simp only [canonical, stream, ihc, (hnext next ihn).1]

end trees

end SerializableContinuation

/-! ## Samples -/

section sample

/-- A rational as a fraction: sign, numerator, a slash and the denominator. -/
def displayFraction (x : ℚ) : List Char :=
  (if x.num < 0 then ['-'] else []) ++ (digits x.num.natAbs ++ '/' :: digits x.den)

open SerializableContinuation

theorem minus_ne_digits {m : Nat} {w w' : List Char} :
    '-' :: w ≠ digits m ++ '/' :: w' := by
  intro h
  cases hd : digits m with
  | nil =>
    rw [hd] at h
    cases h
  | cons x ds =>
    rw [hd] at h
    obtain ⟨hx, -⟩ := List.cons.inj h
    have hdigit : x.isDigit := isDigit_of_mem_digits (n := m) (by rw [hd]; exact List.mem_cons_self)
    rw [← hx] at hdigit
    cases hdigit

theorem displayFraction_injective : Function.Injective displayFraction := by
  intro x y h
  unfold displayFraction at h
  have hparts : ∀ {w : List Char}, w ++ (digits x.num.natAbs ++ '/' :: digits x.den)
      = w ++ (digits y.num.natAbs ++ '/' :: digits y.den) →
        x.num.natAbs = y.num.natAbs ∧ x.den = y.den := by
    intro w hw
    obtain ⟨hnum, hden⟩ := digits_mark_inj rfl (List.append_cancel_left hw)
    exact ⟨hnum, digits_injective hden⟩
  by_cases hx : x.num < 0
  · by_cases hy : y.num < 0
    · rw [if_pos hx, if_pos hy] at h
      obtain ⟨hnum, hden⟩ := hparts h
      exact Rat.ext (by omega) hden
    · rw [if_pos hx, if_neg hy] at h
      exact absurd h minus_ne_digits
  · by_cases hy : y.num < 0
    · rw [if_neg hx, if_pos hy] at h
      exact absurd h.symm minus_ne_digits
    · rw [if_neg hx, if_neg hy] at h
      obtain ⟨hnum, hden⟩ := hparts h
      exact Rat.ext (by omega) hden

theorem mark_notMem_displayFraction {x : ℚ} (hmark : mark.isDigit = false)
    (hsign : mark ≠ '-') (hslash : mark ≠ '/') : mark ∉ displayFraction x := by
  intro h
  unfold displayFraction at h
  have hd : ∀ n, mark ∉ digits n := fun n hn => mark_notMem_digits hmark _ hn rfl
  split at h <;> simp [hd, hsign, hslash] at h

/-- A way of printing to evaluate with. -/
@[reducible] def FloatDisplay.fraction : FloatDisplay where
  display := displayFraction
  display_injective := displayFraction_injective
  colon_notMem _ := mark_notMem_displayFraction rfl (by decide) (by decide)
  semicolon_notMem _ := mark_notMem_displayFraction rfl (by decide) (by decide)

attribute [local instance] FloatDisplay.fraction

/-- A task without options. -/
def plainTask (id : String) (version : Option String) (next : Option SerializableContinuation) :
    SerializableContinuation :=
  .task id none none version none [] next

/-- A task that is retried once, and waits no longer than this for it. -/
def retriedTask (maxDelay : Option Duration) : SerializableContinuation :=
  .task "a" none (some ⟨1, 0, 1, maxDelay⟩) none none [] none

end sample

end Sayiir
