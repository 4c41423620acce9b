import Mathlib.Data.List.Basic
import Mathlib.Data.List.Nodup

/-!
Neighbours in a list without repetitions. A chain of slots is described by the
list of its slots; what a slot stores as its neighbours is then what these two
functions answer. The lemmas say how the neighbours change when the list gets a
new head or loses a member, which are the two ways in which a chain is edited.
-/

namespace LabelGraph

def following : List Nat → Nat → Option Nat
  | [], _ => none
  | a :: l, i => if i = a then l.head? else following l i

def preceding : List Nat → Nat → Option Nat
  | [], _ => none
  | a :: l, i => if l.head? = some i then some a else preceding l i

theorem preceding_of_not_mem {l : List Nat} {i : Nat} (hi : i ∉ l) :
    preceding l i = none := by
  induction l with
  | nil => rfl
  | cons a l ih =>
      simp only [List.mem_cons, not_or] at hi
      have hhead : l.head? ≠ some i := by
        intro h
        apply hi.2
        exact List.mem_of_head? h
      simp only [preceding, if_neg hhead, ih hi.2]

theorem following_mem {l : List Nat} {i j : Nat} (h : following l i = some j) : j ∈ l := by
  induction l with
  | nil => cases h
  | cons a l ih =>
      simp only [following] at h
      split at h
      · apply List.mem_cons_of_mem
        exact List.mem_of_head? h
      · apply List.mem_cons_of_mem
        exact ih h

theorem preceding_mem {l : List Nat} {i j : Nat} (h : preceding l i = some j) : j ∈ l := by
  induction l with
  | nil => cases h
  | cons a l ih =>
      simp only [preceding] at h
      split at h
      · cases h
        exact List.mem_cons_self
      · apply List.mem_cons_of_mem
        exact ih h

theorem preceding_head {l : List Nat} {i : Nat} (hl : l.Nodup) (hi : l.head? = some i) :
    preceding l i = none := by
  cases l with
  | nil => rfl
  | cons a l =>
      obtain rfl : a = i := by simpa using hi
      have ha := (List.nodup_cons.1 hl).1
      have hhead : l.head? ≠ some a := by
        intro h
        apply ha
        exact List.mem_of_head? h
      simp only [preceding, if_neg hhead, preceding_of_not_mem ha]

/-- The two functions are inverse to each other. -/
theorem following_eq_some_iff {l : List Nat} (hl : l.Nodup) (i j : Nat) :
    following l i = some j ↔ preceding l j = some i := by
  induction l with
  | nil => simp [following, preceding]
  | cons a l ih =>
      obtain ⟨ha, hl⟩ := List.nodup_cons.1 hl
      simp only [following, preceding]
      by_cases hi : i = a
      · subst hi
        have hprevious : preceding l j ≠ some i := by
          intro h
          apply ha
          exact preceding_mem h
        by_cases hj : l.head? = some j <;> simp [hj, hprevious]
      · by_cases hj : l.head? = some j
        · simp [hi, hj, Ne.symm hi, ih hl, preceding_head hl hj]
        · simp [hi, hj, ih hl]

theorem preceding_eq_none_iff {l : List Nat} {i : Nat} (hl : l.Nodup) (hi : i ∈ l) :
    preceding l i = none ↔ l.head? = some i := by
  refine ⟨?_, preceding_head hl⟩
  intro h
  induction l with
  | nil => cases hi
  | cons a l ih =>
      rcases List.mem_cons.1 hi with rfl | hi
      · rfl
      · simp only [preceding] at h
        split at h
        · cases h
        · next hhead => exact absurd (ih (List.nodup_cons.1 hl).2 hi h) hhead

theorem head?_erase {l : List Nat} (i : Nat) :
    (l.erase i).head? = if l.head? = some i then following l i else l.head? := by
  cases l with
  | nil => rfl
  | cons a l =>
      by_cases ha : a = i
      · simp [ha, following]
      · simp [ha]

/-- A member that loses the member behind it gets that one's next member. -/
theorem following_erase {l : List Nat} {i k : Nat} (hl : l.Nodup) (hk : k ≠ i) :
    following (l.erase i) k = if following l k = some i then following l i else following l k := by
  induction l with
  | nil => rfl
  | cons a l ih =>
      obtain ⟨ha, hl⟩ := List.nodup_cons.1 hl
      by_cases hi : a = i
      · subst hi
        have hnext : following l k ≠ some a := by
          intro h
          apply ha
          exact following_mem h
        simp [following, hk, hnext]
      · rw [List.erase_cons_tail (by simpa using hi)]
        by_cases hka : k = a
        · simp [following, hka, head?_erase, Ne.symm hi]
        · simp [following, hka, Ne.symm hi, ih hl]

/-- A member that loses the member in front of it gets that one's previous member. -/
theorem preceding_erase {l : List Nat} {i k : Nat} (hl : l.Nodup) (hk : k ≠ i) :
    preceding (l.erase i) k =
      if preceding l k = some i then preceding l i else preceding l k := by
  induction l with
  | nil => rfl
  | cons a l ih =>
      obtain ⟨ha, hl⟩ := List.nodup_cons.1 hl
      by_cases hi : a = i
      · subst hi
        have hprevious : preceding l k ≠ some a := by
          intro h
          apply ha
          exact preceding_mem h
        by_cases hhead : l.head? = some k
        · simp [preceding, hhead, hk, preceding_head hl hhead, preceding_of_not_mem ha]
        · simp [preceding, hhead, hprevious]
      · rw [List.erase_cons_tail (by simpa using hi)]
        simp only [preceding, head?_erase, ih hl]
        by_cases hhead : l.head? = some i
        · by_cases hprevious : preceding l k = some i <;>
            simp [hhead, Ne.symm hk, following_eq_some_iff hl, hprevious]
        · by_cases hheadk : l.head? = some k
          · simp [hheadk, hk, hi]
          · simp [hhead, hheadk]

/-- The member behind the end of a front part is the head of the rest. -/
theorem following_append {front rest : List Nat} {i : Nat} (hi : i ∉ front) :
    following (front ++ i :: rest) i = rest.head? := by
  induction front with
  | nil => simp [following]
  | cons a front ih =>
      simp only [List.mem_cons, not_or] at hi
      simp [following, hi.1, ih hi.2]

end LabelGraph
