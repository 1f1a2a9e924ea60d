import Mathlib.Algebra.BigOperators.Group.Finset.Basic
import Mathlib.Data.Fintype.Card
import Mathlib.Data.Fintype.Prod
import Mathlib.SetTheory.Cardinal.Finite

/-! How often a partial map on a finite type takes a value, and the sum of a weight on a
finite type, as one point changes. -/
namespace Tally
variable {α β : Type*} [Fintype α] [DecidableEq β]

/-- The number of points that g sends to b. -/
noncomputable def tally {α β : Type*} (g : α → Option β) (b : β) : Nat :=
  Nat.card { x // g x = some b }

theorem tally_eq (g : α → Option β) (b : β) :
    tally g b = (Finset.univ.filter fun x => g x = some b).card := by
  rw [tally, Nat.card_eq_fintype_card, Fintype.card_subtype]

theorem tally_eq_zero {g : α → Option β} {b : β} : tally g b = 0 ↔ ∀ x, g x≠some b := by
  simp [tally_eq, Finset.filter_eq_empty_iff]

theorem tally_pos {g : α → Option β} {b : β} {x : α} (h : g x = some b) : 0<tally g b := by
  refine Nat.pos_of_ne_zero fun h0 => ?_
  exact tally_eq_zero.mp h0 x h

theorem tally_le_card (g : α → Option β) (b : β) : tally g b≤Fintype.card α := by
  rw [tally_eq]
  exact Finset.card_le_univ _

variable [DecidableEq α]

theorem tally_update (g : α → Option β) (x : α) (o : Option β) (b : β) :
    tally (Function.update g x o) b+(if g x = some b then 1 else 0) =
      tally g b+(if o = some b then 1 else 0) := by
  have hother : ∀ y∈Finset.univ.erase x, Function.update g x o y = g y := by
    intro y hy
    exact Function.update_of_ne (Finset.ne_of_mem_erase hy) _ _
  have hsplit : ∀ k : α → Option β, tally k b =
      ((Finset.univ.erase x).filter fun y => k y = some b).card+(if k x = some b then
        1 else 0) := by
    intro k
    rw [tally_eq, ← Finset.insert_erase (Finset.mem_univ x), Finset.filter_insert]
    split
    · rw [Finset.card_insert_of_notMem (by simp)]
      simp
    · simp
  rw [hsplit g, hsplit (Function.update g x o), Finset.filter_congr fun y hy => by rw [hother y hy],
    Function.update_self]
  omega

theorem sum_change {g g' : α → Nat} (x : α) (h : ∀ y, y≠x → g' y = g y) :
    Finset.univ.sum g'+g x = Finset.univ.sum g+g' x := by
  have hrest : (Finset.univ.erase x).sum g' = (Finset.univ.erase x).sum g :=
    Finset.sum_congr rfl fun y hy => h y (Finset.ne_of_mem_erase hy)
  have hg : g x+(Finset.univ.erase x).sum g = Finset.univ.sum g :=
    Finset.add_sum_erase Finset.univ g (Finset.mem_univ x)
  have hg' : g' x+(Finset.univ.erase x).sum g' = Finset.univ.sum g' :=
    Finset.add_sum_erase Finset.univ g' (Finset.mem_univ x)
  omega

end Tally
