import Mathlib.Data.List.Basic

/-!
# Delimited words

When can a sequence of fields be read back from the word in which they stand one
after the other? A field without letters of `D` can be told from what follows if
that is empty or begins with a letter of `D` (`append_inj_of_stops`). From there a
code is built up: `Separates` says that a value can be read off the front of a
word, whatever follows it in a given set, up to what `key` keeps of it, and
optional and repeated parts inherit it from the parts they are made of.
-/

namespace Delimited

variable {α β γ : Type*}

/-- The word is empty or begins with a letter of `D`. -/
def Stops (D : α → Prop) (w : List α) : Prop := ∀ x, w.head? = some x → D x

variable {D E : α → Prop} {s t r r' : List α}

theorem stops_nil : Stops D ([] : List α) := by
  intro x h
  cases h

theorem stops_cons {x : α} (h : D x) : Stops D (x :: r) := by
  intro y hy
  cases hy
  exact h

/-- A field that is free of delimiters is told from what follows it. -/
theorem append_inj_of_stops (hs : ∀ x ∈ s, ¬ D x) (ht : ∀ x ∈ t, ¬ D x) (hr : Stops D r)
    (hr' : Stops D r') (h : s ++ r = t ++ r') : s = t ∧ r = r' := by
  induction s generalizing t with
  | nil =>
    cases t with
    | nil => exact ⟨rfl, h⟩
    | cons y t =>
      -- `r` would begin with the first letter of `t`
      have hy : r = y :: (t ++ r') := h
      exact absurd (hr y (by rw [hy]; rfl)) (ht y List.mem_cons_self)
  | cons x s ih =>
    cases t with
    | nil =>
      have hx : r' = x :: (s ++ r) := h.symm
      exact absurd (hr' x (by rw [hx]; rfl)) (hs x List.mem_cons_self)
    | cons y t =>
      obtain ⟨hxy, hrest⟩ := List.cons.inj h
      obtain ⟨hst, hrr⟩ := ih (fun z hz => hs z (List.mem_cons_of_mem _ hz))
        (fun z hz => ht z (List.mem_cons_of_mem _ hz)) hrest
      exact ⟨by rw [hxy, hst], hrr⟩

/-- A field that is free of delimiters ends at the first one. -/
theorem append_cons_inj {d d' : α} (hs : ∀ x ∈ s, ¬ D x) (ht : ∀ x ∈ t, ¬ D x) (hd : D d)
    (hd' : D d') (h : s ++ d :: r = t ++ d' :: r') : s = t ∧ d = d' ∧ r = r' := by
  obtain ⟨hst, hrest⟩ := append_inj_of_stops hs ht (stops_cons hd) (stops_cons hd') h
  exact ⟨hst, List.cons.inj hrest⟩

/-! ## Codes -/

/-- The value `b` can be read off a word that begins with its code, up to `key` and
among the values that satisfy `P`, if what follows the code is in `F`. -/
def Separates (P : β → Prop) (F : List α → Prop) (code : β → List α) (key : β → γ) (b : β) :
    Prop :=
  ∀ b', P b' → ∀ r r', F r → F r' → code b ++ r = code b' ++ r' → key b = key b' ∧ r = r'

variable {P : β → Prop} {F G : List α → Prop} {code : β → List α} {key : β → γ} {b : β}

/-- A code that is always followed by a mark needs nothing else to follow it. -/
theorem Separates.marked (h : Separates P F code key b) (x : α) (hF : ∀ r, F (x :: r)) :
    Separates P (fun _ => True) (fun b => code b ++ [x]) key b := by
  intro b' hb' r r' _ _ heq
  have heq' : code b ++ (x :: r) = code b' ++ (x :: r') := by
    simpa only [List.append_assoc, List.singleton_append] using heq
  obtain ⟨hkey, hrest⟩ := h b' hb' _ _ (hF r) (hF r') heq'
  exact ⟨hkey, (List.cons.inj hrest).2⟩

/-- An optional value, whose code begins with a letter that cannot follow it. -/
theorem Separates.option {o : Option β} (h : ∀ b, o = some b → Separates P (Stops D) code key b)
    (hcode : ∀ b, P b → ∃ x w, code b = x :: w ∧ ¬ D x) (ho : ∀ b, o = some b → P b) :
    Separates (fun o : Option β => ∀ b, o = some b → P b) (Stops D)
      (fun o => o.elim [] code) (Option.map key) o := by
  intro o' ho' r r' hr hr' heq
  cases o with
  | none =>
    cases o' with
    | none => exact ⟨rfl, heq⟩
    | some b' =>
      obtain ⟨x, w, hx, hD⟩ := hcode b' (ho' b' rfl)
      have hr0 : r = x :: (w ++ r') := by
        have := heq
        simp only [Option.elim_none, Option.elim_some, List.nil_append, hx] at this
        exact this
      exact absurd (hr x (by rw [hr0]; rfl)) hD
  | some b =>
    cases o' with
    | none =>
      obtain ⟨x, w, hx, hD⟩ := hcode b (ho b rfl)
      have hr0 : r' = x :: (w ++ r) := by
        have := heq.symm
        simp only [Option.elim_none, Option.elim_some, List.nil_append, hx] at this
        exact this
      exact absurd (hr' x (by rw [hr0]; rfl)) hD
    | some b' =>
      obtain ⟨hkey, hrest⟩ := h b rfl b' (ho' b' rfl) r r' hr hr' heq
      exact ⟨congrArg some hkey, hrest⟩

/-- A repeated value, each of whose codes begins with a letter that cannot follow the
last one. -/
theorem Separates.list {l : List β} (h : ∀ b ∈ l, Separates P (fun _ => True) code key b)
    (hcode : ∀ b, P b → ∃ x w, code b = x :: w ∧ ¬ D x) (hl : ∀ b ∈ l, P b) :
    Separates (fun l : List β => ∀ b ∈ l, P b) (Stops D) (List.flatMap code) (List.map key) l := by
  induction l with
  | nil =>
    intro l' hl' r r' hr hr' heq
    cases l' with
    | nil => exact ⟨rfl, heq⟩
    | cons b' l' =>
      obtain ⟨x, w, hx, hD⟩ := hcode b' (hl' b' List.mem_cons_self)
      have hr0 : r = x :: (w ++ (l'.flatMap code ++ r')) := by
        rw [List.flatMap_cons, hx] at heq
        simpa only [List.flatMap_nil, List.nil_append, List.cons_append,
          List.append_assoc] using heq
      exact absurd (hr x (by rw [hr0]; rfl)) hD
  | cons b l ih =>
    intro l' hl' r r' hr hr' heq
    cases l' with
    | nil =>
      obtain ⟨x, w, hx, hD⟩ := hcode b (hl b List.mem_cons_self)
      have hr0 : r' = x :: (w ++ (l.flatMap code ++ r)) := by
        rw [List.flatMap_cons, hx] at heq
        simpa only [List.flatMap_nil, List.nil_append, List.cons_append,
          List.append_assoc] using heq.symm
      exact absurd (hr' x (by rw [hr0]; rfl)) hD
    | cons b' l' =>
      rw [List.flatMap_cons, List.flatMap_cons, List.append_assoc, List.append_assoc] at heq
      obtain ⟨hkey, hrest⟩ := h b List.mem_cons_self b' (hl' b' List.mem_cons_self) _ _
        trivial trivial heq
      obtain ⟨hkeys, hr2⟩ := ih (fun c hc => h c (List.mem_cons_of_mem _ hc))
        (fun c hc => hl c (List.mem_cons_of_mem _ hc)) l'
        (fun c hc => hl' c (List.mem_cons_of_mem _ hc)) r r' hr hr' hrest
      exact ⟨by rw [List.map_cons, List.map_cons, hkey, hkeys], hr2⟩

end Delimited
