import Mathlib.Data.List.Basic
import Mathlib.Logic.Function.Basic
import Mathlib.Tactic

/-! An intrusive singly linked queue: every element carries one link, and the
queue is a head and a tail pointer. The links of elements outside the queue are
unrestricted, so the three operations change at most two links. -/

namespace Libuc.Lib

variable {α : Type*} {next : α → Option α} {head tail : Option α} {l : List α}

/-- Following the links from `head` visits `l` and ends in null. -/
def Linked (next : α → Option α) : Option α → List α → Prop
  | head, [] => head = none
  | head, x :: l => head = some x ∧ Linked next (next x) l

theorem Linked.congr {next' : α → Option α} (h : Linked next head l)
    (he : ∀ x ∈ l, next' x = next x) : Linked next' head l := by
  induction l generalizing head with
  | nil => exact h
  | cons x l ih =>
    obtain ⟨hx, hl⟩ := h
    refine ⟨hx, ?_⟩
    rw [he x (by simp)]
    exact ih hl (fun y hy => he y (by simp [hy]))

theorem Linked.head_eq (h : Linked next head l) : head = l.head? := by
  cases l with
  | nil => exact h
  | cons x l => exact h.1

/-- A list without repetitions ends where its last link is null; writing that
link extends it. -/
theorem Linked.append [DecidableEq α] {t x : α} (h : Linked next head (l ++ [t]))
    (hnd : (l ++ [t]).Nodup) (hx : next x = none) (hxt : x ≠ t) :
    Linked (Function.update next t (some x)) head (l ++ [t] ++ [x]) := by
  induction l generalizing head with
  | nil =>
    obtain ⟨hh, -⟩ := h
    refine ⟨hh, ?_, ?_⟩
    · rw [Function.update_self]
    · rw [Function.update_of_ne hxt]
      exact hx
  | cons y l ih =>
    obtain ⟨hh, hl⟩ := h
    have hy : y ≠ t := by
      rintro rfl
      simp at hnd
    refine ⟨hh, ?_⟩
    rw [Function.update_of_ne hy]
    exact ih hl (List.nodup_cons.mp hnd).2

/-- The links from `head` visit `l`, and `tail` is its last element. -/
structure LinkedQueue (next : α → Option α) (head tail : Option α) (l : List α) : Prop where
  linked : Linked next head l
  tail_eq : tail = l.getLast?
  nodup : l.Nodup

namespace LinkedQueue

theorem congr {next' : α → Option α} (h : LinkedQueue next head tail l)
    (he : ∀ x ∈ l, next' x = next x) : LinkedQueue next' head tail l :=
  ⟨h.linked.congr he, h.tail_eq, h.nodup⟩

theorem empty (next : α → Option α) : LinkedQueue next none none [] := ⟨rfl, rfl, List.nodup_nil⟩

theorem head_eq (h : LinkedQueue next head tail l) : head = l.head? := h.linked.head_eq

theorem head_eq_none (h : LinkedQueue next head tail l) : head = none ↔ l = [] := by
  rw [h.head_eq, List.head?_eq_none_iff]

theorem tail_eq_none (h : LinkedQueue next head tail l) : tail = none ↔ l = [] := by
  rw [h.tail_eq, List.getLast?_eq_none_iff]

theorem push_empty {x : α} (h : LinkedQueue next head none l) (hx : next x = none) :
    LinkedQueue next (some x) (some x) [x] ∧ l = [] :=
  ⟨⟨⟨rfl, hx⟩, rfl, List.nodup_singleton x⟩, h.tail_eq_none.mp rfl⟩

theorem push_last [DecidableEq α] {t x : α} (h : LinkedQueue next head (some t) l)
    (hx : next x = none) (hxl : x ∉ l) :
    t ∈ l ∧ LinkedQueue (Function.update next t (some x)) head (some x) (l ++ [x]) := by
  obtain ⟨l', rfl⟩ := List.getLast?_eq_some_iff.mp h.tail_eq.symm
  have hxt : x ≠ t := by
    rintro rfl
    simp at hxl
  refine ⟨by simp, h.linked.append h.nodup hx hxt, by simp, ?_⟩
  exact List.nodup_append.mpr ⟨h.nodup, List.nodup_singleton x, by
    intro y hy z hz
    simp only [List.mem_singleton] at hz
    rintro rfl
    exact hxl (hz ▸ hy)⟩

theorem pop {x : α} (h : LinkedQueue next (some x) tail l) :
    ∃ l', l = x :: l' ∧ LinkedQueue next (next x) (if next x = none then none else tail) l' := by
  cases l with
  | nil => cases h.linked
  | cons y l' =>
    obtain ⟨hy, hl⟩ := h.linked
    cases hy
    refine ⟨l', rfl, hl, ?_, (List.nodup_cons.mp h.nodup).2⟩
    have ht := h.tail_eq
    cases l' with
    | nil =>
      have : next x = none := hl
      rw [if_pos this]
      rfl
    | cons z l' =>
      rw [if_neg (by rw [hl.1]; simp), ht, List.getLast?_cons_cons]

end LinkedQueue

end Libuc.Lib
