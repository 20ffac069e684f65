import Mathlib.Data.List.Sort
import Mathlib.Data.Set.Finite.Lemmas

/-!
# The first elements of a list by a key

A query with an order and a limit keeps the first elements of a list by some key.
`mem_smallest` says which ones without sorting: those with fewer smaller elements
than the limit. If only elements with a property are of use, `exists_mem_smallest`
says when one of them is kept: only the useless elements ahead of it count.
-/

namespace Ranking

variable {α κ : Type} [LinearOrder κ]

/-- The first `n` elements of the list in the order of the key. -/
def smallest (key : α → κ) (n : Nat) (l : List α) : List α :=
  (l.insertionSort fun a b => key a ≤ key b).take n

variable {key : α → κ} {n : Nat} {l : List α}

instance total_key : Std.Total fun a b : α => key a ≤ key b := ⟨fun a b => le_total (key a) (key b)⟩

instance isTrans_key : IsTrans α fun a b => key a ≤ key b := ⟨fun _ _ _ => le_trans⟩

theorem mem_of_mem_smallest {x : α} (h : x ∈ smallest key n l) : x ∈ l :=
  (List.mem_insertionSort _).mp (List.mem_of_mem_take h)

theorem nodup_smallest (h : l.Nodup) : (smallest key n l).Nodup :=
  ((List.perm_insertionSort _ l).nodup_iff.mpr h).sublist (List.take_sublist n _)

/-- In a list in the strict order of the key, an element has its position many
smaller elements. -/
theorem mem_take_iff_countP_lt (h : l.Pairwise fun a b => key a < key b) {x : α} (hx : x ∈ l) :
    x ∈ l.take n ↔ l.countP (fun y => key y < key x) < n := by
  induction l generalizing n with
  | nil => exact absurd hx List.not_mem_nil
  | cons a l ih =>
    obtain ⟨ha, hl⟩ := List.pairwise_cons.mp h
    rcases List.mem_cons.mp hx with rfl | hxl
    · -- nothing behind the head is smaller
      have hzero : l.countP (fun y => decide (key y < key x)) = 0 := by
        rw [List.countP_eq_zero]
        intro y hy hlt
        exact lt_asymm (ha y hy) (of_decide_eq_true hlt)
      rw [List.countP_cons_of_neg (by simp), hzero]
      cases n with
      | zero => simp
      | succ n => simp
    · have hlt : key a < key x := ha x hxl
      have hne : x ≠ a := fun h => lt_irrefl (key a) (h ▸ hlt)
      rw [List.countP_cons_of_pos (by simpa using hlt)]
      cases n with
      | zero => simp
      | succ n =>
        rw [List.take_succ_cons, List.mem_cons, or_iff_right hne, ih hl hxl]
        exact Nat.succ_lt_succ_iff.symm

/-- **The first `n` elements are those with fewer than `n` smaller ones.** -/
theorem mem_smallest (hkey : (l.map key).Nodup) {x : α} :
    x ∈ smallest key n l ↔ x ∈ l ∧ l.countP (fun y => key y < key x) < n := by
  have hperm := List.perm_insertionSort (fun a b => key a ≤ key b) l
  have hstrict : (l.insertionSort fun a b => key a ≤ key b).Pairwise fun a b => key a < key b := by
    have hne : (l.insertionSort fun a b => key a ≤ key b).Pairwise fun a b => key a ≠ key b :=
      List.pairwise_map.mp ((hperm.map key).nodup_iff.mpr hkey)
    exact ((List.pairwise_insertionSort _ l).and hne).imp fun h => lt_of_le_of_ne h.1 h.2
  constructor
  · intro hx
    have hxl := List.mem_of_mem_take hx
    refine ⟨hperm.mem_iff.mp hxl, ?_⟩
    rw [← hperm.countP_eq]
    exact (mem_take_iff_countP_lt hstrict hxl).mp hx
  · rintro ⟨hxl, hcount⟩
    rw [← hperm.countP_eq] at hcount
    exact (mem_take_iff_countP_lt hstrict (hperm.mem_iff.mpr hxl)).mpr hcount

variable (key) in
/-- Among the elements with a property there is a smallest one. -/
theorem exists_smallest {p : α → Prop} {x : α} (hx : x ∈ l) (hp : p x) :
    ∃ a ∈ l, p a ∧ key a ≤ key x ∧ ∀ y ∈ l, key y < key a → ¬ p y := by
  have hfinite : {y | y ∈ l ∧ p y}.Finite := l.finite_toSet.subset fun _ hy => hy.1
  obtain ⟨a, ⟨hal, hpa⟩, hmin⟩ := Set.exists_min_image _ key hfinite ⟨x, hx, hp⟩
  exact ⟨a, hal, hpa, hmin x ⟨hx, hp⟩, fun y hy hlt hpy => not_lt.mpr (hmin y ⟨hy, hpy⟩) hlt⟩

/-- **An element with the property is kept** if fewer than `n` elements without it
come before one that has it. -/
theorem exists_mem_smallest (hkey : (l.map key).Nodup) {p : α → Bool} :
    (∃ x ∈ smallest key n l, p x)
      ↔ ∃ x ∈ l, p x ∧ l.countP (fun y => !p y && decide (key y < key x)) < n := by
  constructor
  · rintro ⟨x, hx, hp⟩
    obtain ⟨hxl, hcount⟩ := (mem_smallest hkey).mp hx
    refine ⟨x, hxl, hp, lt_of_le_of_lt (List.countP_mono_left fun y _ hy => ?_) hcount⟩
    exact (Bool.and_eq_true _ _ ▸ hy).2
  · rintro ⟨x, hxl, hp, hcount⟩
    -- everything before the smallest element with the property is without it
    obtain ⟨a, ha, hpa, hle, hmin⟩ := exists_smallest key (p := fun y => p y = true) hxl hp
    refine ⟨a, (mem_smallest hkey).mpr ⟨ha, lt_of_le_of_lt ?_ hcount⟩, hpa⟩
    refine List.countP_mono_left fun y hy hlt => ?_
    have hya : key y < key a := of_decide_eq_true hlt
    have hpy : p y = false := Bool.eq_false_iff.mpr (hmin y hy hya)
    simp [hpy, lt_of_lt_of_le hya hle]

/-- Any two elements can be put at the two ends of a list. -/
theorem exists_perm_ends {a b : α} (ha : a ∈ l) (hb : b ∈ l) (hne : a ≠ b) :
    ∃ m, (b :: m ++ [a]).Perm l := by
  obtain ⟨s, t, rfl⟩ := List.append_of_mem hb
  have hmid : (s ++ b :: t).Perm (b :: (s ++ t)) := List.perm_middle
  have hrest : a ∈ s ++ t := (List.mem_cons.mp (hmid.mem_iff.mp ha)).resolve_left hne
  obtain ⟨s', t', heq⟩ := List.append_of_mem hrest
  refine ⟨s' ++ t', List.Perm.trans ?_ hmid.symm⟩
  rw [heq, List.cons_append]
  refine List.Perm.cons b ?_
  calc (s' ++ t' ++ [a]).Perm (a :: (s' ++ t')) := List.perm_append_singleton a _
    List.Perm _ (s' ++ a :: t') := List.perm_middle.symm

end Ranking
