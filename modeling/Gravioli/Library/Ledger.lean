import Mathlib.Algebra.BigOperators.Group.Finset.Basic
import Mathlib.Algebra.Order.BigOperators.Group.Finset
import Mathlib.Algebra.Order.Group.Multiset

set_option autoImplicit false

/-! # Ledgers over places

Every item of a system is in some place (a thread's hand, a queue, another owner), and steps move
items between places. `total` adds up what all places hold, in any commutative monoid: multisets of
items, or numbers when only the count matters. `total_exchange` is the effect of a step that touches
one place; moving between two places and taking in something new are derived from it.

For multisets of items without duplicates the total says where each item is: `existsUnique_place`.
-/

namespace Ledger

universe u v w

variable {π : Type u} [Fintype π] {M : Type v} {α : Type w}

/-- What all places hold together. -/
def total [AddCommMonoid M] (c : π → M) : M := ∑ p, c p

section Steps

variable [DecidableEq π] {c c' : π → M}

theorem total_eq_add [AddCommMonoid M] (c : π → M) (p : π) :
    total c = c p + ∑ q ∈ Finset.univ.erase p, c q :=
  (Finset.add_sum_erase _ c (Finset.mem_univ p)).symm

/-- One place changes: its old and its new contents balance the two totals. -/
theorem total_exchange [AddCommMonoid M] (p : π) (ho : ∀ q, q ≠ p → c' q = c q) :
    total c' + c p = total c + c' p := by
  have hrest : ∑ q ∈ Finset.univ.erase p, c' q = ∑ q ∈ Finset.univ.erase p, c q :=
    Finset.sum_congr rfl (fun q hq => ho q (Finset.ne_of_mem_erase hq))
  rw [total_eq_add c' p, total_eq_add c p, hrest]
  rw [add_right_comm, add_comm (c' p), add_right_comm]

/-- One place takes in `m`. -/
theorem total_gain [AddCancelCommMonoid M] (p : π) (m : M) (hp : c' p = c p + m)
    (ho : ∀ q, q ≠ p → c' q = c q) : total c' = total c + m := by
  have h := total_exchange p ho
  rw [hp, ← add_assoc, add_right_comm] at h
  exact add_right_cancel h

/-- `m` moves from `p` to `q`. -/
theorem total_move [AddCancelCommMonoid M] {p q : π} (m : M) (hpq : p ≠ q) (hp : c p = c' p + m)
    (hq : c' q = c q + m) (ho : ∀ r, r ≠ p → r ≠ q → c' r = c r) : total c' = total c := by
  -- the state in between: `m` has left `p` and not yet reached `q`
  have hout : total c = total (Function.update c p (c' p)) + m := by
    refine total_gain p m ?_ ?_
    · rw [Function.update_self, hp]
    · intro r hr
      rw [Function.update_of_ne hr]
  have hin : total c' = total (Function.update c p (c' p)) + m := by
    refine total_gain q m ?_ ?_
    · rw [Function.update_of_ne hpq.symm, hq]
    · intro r hr
      by_cases hrp : r = p
      · subst hrp
        rw [Function.update_self]
      · rw [Function.update_of_ne hrp, ho r hrp hr]
  rw [hin, hout]

end Steps

/-! ## Where an item is -/

section Places

variable {c : π → Multiset α}

theorem mem_total {x : α} : x ∈ total c ↔ ∃ p, x ∈ c p := by
  simp [total, Multiset.mem_sum]

theorem le_total (p : π) : c p ≤ total c := by
  classical
  rw [total_eq_add c p]
  exact Multiset.le_add_right _ _

theorem nodup_place (h : (total c).Nodup) (p : π) : (c p).Nodup :=
  Multiset.nodup_of_le (le_total p) h

theorem place_unique (h : (total c).Nodup) {x : α} {p q : π} (hp : x ∈ c p) (hq : x ∈ c q) :
    p = q := by
  classical
  by_contra hne
  rw [total_eq_add c p] at h
  have hmem : x ∈ ∑ r ∈ Finset.univ.erase p, c r :=
    Multiset.mem_sum.2 ⟨q, Finset.mem_erase.2 ⟨Ne.symm hne, Finset.mem_univ q⟩, hq⟩
  exact Multiset.disjoint_left.1 (Multiset.nodup_add.1 h).2.2 hp hmem

/-- Without duplicates, every item is in exactly one place. -/
theorem existsUnique_place (h : (total c).Nodup) {x : α} (hx : x ∈ total c) : ∃! p, x ∈ c p := by
  obtain ⟨p, hp⟩ := mem_total.1 hx
  exact ⟨p, hp, fun q hq => place_unique h hq hp⟩

end Places

end Ledger
