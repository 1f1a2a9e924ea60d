import Mathlib.Data.Fintype.Card
import Mathlib.Logic.Function.Basic

/-! Barriers that are waited at again and again, as pthread_barrier_wait does: the last
thread of a round lets all of the round go on. -/

/-- A thread that waits keeps the round it came in; passed counts its waits, for the
proofs. -/
structure Barrier (ι : Type*) where
  arrived : Nat
  round : Nat
  ticket : ι → Option Nat
  passed : ι → Nat

namespace Barrier

def fresh (ι : Type*) : Barrier ι where
  arrived := 0
  round := 0
  ticket _ := none
  passed _ := 0

variable {ι : Type*}

def Released (b : Barrier ι) (p : ι) : Prop :=
  (b.ticket p).any (·≠b.round) = true

instance (b : Barrier ι) (p : ι) : Decidable (b.Released p) :=
  inferInstanceAs (Decidable (_ = _))

theorem released_iff {b : Barrier ι} {p : ι} :
    b.Released p ↔ ∃ r, b.ticket p = some r ∧ r≠b.round := by
  simp [Released, Option.any_eq_true]

def Waits (b : Barrier ι) (p : ι) : Prop := b.ticket p = some b.round

instance (b : Barrier ι) : DecidablePred b.Waits :=
  fun _ => inferInstanceAs (Decidable (_ = _))

section
variable [DecidableEq ι]

def enter (b : Barrier ι) (count : Nat) (p : ι) : Barrier ι :=
  { b with
    arrived := if b.arrived+1 = count then 0 else b.arrived+1
    round := if b.arrived+1 = count then b.round+1 else b.round
    ticket := Function.update b.ticket p (some b.round) }

def leave (b : Barrier ι) (p : ι) : Barrier ι :=
  { b with
    ticket := Function.update b.ticket p none
    passed := Function.update b.passed p (b.passed p+1) }

variable {b : Barrier ι} {count : Nat} {p q : ι}

@[simp] theorem enter_passed : (b.enter count p).passed = b.passed := rfl

@[simp] theorem enter_ticket : ((b.enter count p).ticket p).isSome = true := by simp [enter]

theorem enter_ticket_of_ne (h : q≠p) : (b.enter count p).ticket q = b.ticket q :=
  Function.update_of_ne h _ _

@[simp] theorem leave_passed : (b.leave p).passed p = b.passed p+1 := by simp [leave]

theorem leave_passed_of_ne (h : q≠p) : (b.leave p).passed q = b.passed q :=
  Function.update_of_ne h _ _

@[simp] theorem leave_ticket : (b.leave p).ticket p = none := by simp [leave]

theorem leave_ticket_of_ne (h : q≠p) : (b.leave p).ticket q = b.ticket q :=
  Function.update_of_ne h _ _

end

section
variable [Fintype ι]

structure Sound (b : Barrier ι) : Prop where
  arrived : b.arrived = (Finset.univ.filter b.Waits).card
  lt : b.arrived < Fintype.card ι
  out : ∀ p, b.ticket p = none → b.passed p = b.round
  inside : ∀ p r, b.ticket p = some r → b.passed p = r ∧ (r = b.round ∨ r+1 = b.round)

theorem sound_fresh [Nonempty ι] : (fresh ι).Sound where
  arrived := by
    refine (Finset.card_eq_zero.mpr (Finset.filter_eq_empty_iff.mpr ?_)).symm
    intro p _ hw
    cases hw
  lt := Fintype.card_pos
  out p _ := rfl
  inside p r h := by simp [fresh] at h

variable {b : Barrier ι} {p q : ι}

theorem Sound.passed_le (h : b.Sound) (p : ι) :
    b.passed p≤b.round ∧ b.round≤b.passed p+1 := by
  cases ht : b.ticket p with
  | none =>
    have hp := h.out p ht
    omega
  | some r =>
    obtain ⟨hp,hr⟩ := h.inside p r ht
    omega

/-- Nobody gets past before all have come; who has come then is let go. -/
theorem Sound.released (h : b.Sound) (hlt : b.passed q < b.passed p) :
    b.Released q ∧ b.passed q+1 = b.passed p := by
  have hp := h.passed_le p
  have hq := h.passed_le q
  refine ⟨released_iff.mpr ?_,by omega⟩
  cases ht : b.ticket q with
  | none =>
    have ho := h.out q ht
    omega
  | some r =>
    have hi := h.inside q r ht
    exact ⟨r,rfl,by omega⟩

/-- Not all can be held at once. -/
theorem Sound.progress (h : b.Sound) (hin : ∀ p, b.ticket p≠none) :
    ∃ p, b.Released p := by
  by_contra hn
  have hw : ∀ p, b.Waits p := by
    intro p
    obtain ⟨r,hr⟩ := Option.ne_none_iff_exists'.mp (hin p)
    by_contra hne
    exact hn ⟨p,released_iff.mpr ⟨r,hr,fun he => hne (hr.trans (he ▸ rfl))⟩⟩
  have ha := h.arrived
  rw [Finset.filter_true_of_mem fun p _ => hw p, Finset.card_univ] at ha
  exact absurd h.lt (by omega)

variable [DecidableEq ι]

theorem Sound.last (h : b.Sound) (hp : b.ticket p = none)
    (hl : b.arrived+1 = Fintype.card ι) (q : ι) (hq : q≠p) : b.Waits q := by
  by_contra hw
  have hs : Finset.univ.filter b.Waits ⊂ Finset.univ.erase p := by
    refine Finset.ssubset_iff_of_subset (fun x hx => ?_) |>.mpr ?_
    · refine Finset.mem_erase.mpr ⟨?_,Finset.mem_univ x⟩
      intro he
      have hx := (Finset.mem_filter.mp hx).2
      rw [Waits, he, hp] at hx
      cases hx
    · exact ⟨q,Finset.mem_erase.mpr ⟨hq,Finset.mem_univ q⟩,
        fun hx => hw (Finset.mem_filter.mp hx).2⟩
  have hc := Finset.card_lt_card hs
  rw [Finset.card_erase_of_mem (Finset.mem_univ p), Finset.card_univ, ← h.arrived] at hc
  omega

theorem Sound.enter (h : b.Sound) (hp : b.ticket p = none) :
    (b.enter (Fintype.card ι) p).Sound := by
  by_cases hl : b.arrived+1 = Fintype.card ι
  · have ht : ∀ q, (b.enter (Fintype.card ι) p).ticket q = some b.round := by
      intro q
      by_cases hq : q = p
      · simp [Barrier.enter, hq]
      · simp only [Barrier.enter, Function.update_of_ne hq]
        exact h.last hp hl q hq
    have hr : (b.enter (Fintype.card ι) p).round = b.round+1 := by simp [Barrier.enter, hl]
    have ha : (b.enter (Fintype.card ι) p).arrived = 0 := by simp [Barrier.enter, hl]
    refine ⟨?_,?_,?_,?_⟩
    · rw [ha, eq_comm, Finset.card_eq_zero, Finset.filter_eq_empty_iff]
      intro q _ hw
      rw [Waits, ht, hr] at hw
      simp at hw
    · rw [ha]
      omega
    · intro q hq
      rw [ht] at hq
      cases hq
    · intro q r hq
      rw [ht] at hq
      cases hq
      refine ⟨?_,.inr hr.symm⟩
      by_cases hqp : q = p
      · rw [hqp]
        exact h.out p hp
      · exact (h.inside q _ (h.last hp hl q hqp)).1
  · have hr : (b.enter (Fintype.card ι) p).round = b.round := by simp [Barrier.enter, hl]
    have ha : (b.enter (Fintype.card ι) p).arrived = b.arrived+1 := by simp [Barrier.enter, hl]
    have hnp : p∉Finset.univ.filter b.Waits := by
      simp [Waits, hp]
    have hw : Finset.univ.filter (b.enter (Fintype.card ι) p).Waits =
        insert p (Finset.univ.filter b.Waits) := by
      ext q
      by_cases hq : q = p
      · simp [Waits, Barrier.enter, hq, hl]
      · simp [Waits, Barrier.enter, hq, hl]
    refine ⟨?_,?_,?_,?_⟩
    · rw [ha, hw, Finset.card_insert_of_notMem hnp, ← h.arrived]
    · have hlt := h.lt
      omega
    · intro q hq
      by_cases hqp : q = p
      · simp [Barrier.enter, hqp] at hq
      · simp only [Barrier.enter, Function.update_of_ne hqp] at hq
        rw [hr]
        exact h.out q hq
    · intro q r hq
      rw [hr]
      by_cases hqp : q = p
      · simp only [Barrier.enter, hqp, Function.update_self, Option.some.injEq] at hq
        rw [hqp]
        exact ⟨(h.out p hp).trans hq,.inl hq.symm⟩
      · simp only [Barrier.enter, Function.update_of_ne hqp] at hq
        exact h.inside q r hq

theorem Sound.leave (h : b.Sound) (hp : b.Released p) : (b.leave p).Sound := by
  obtain ⟨r,ht,hr⟩ := released_iff.mp hp
  have hw : Finset.univ.filter (b.leave p).Waits = Finset.univ.filter b.Waits := by
    refine Finset.filter_congr fun q _ => ?_
    by_cases hq : q = p
    · simp [Waits, Barrier.leave, hq, ht, hr]
    · simp [Waits, Barrier.leave, hq]
  refine ⟨?_,h.lt,?_,?_⟩
  · rw [hw]
    exact h.arrived
  · intro q hq
    by_cases hqp : q = p
    · obtain ⟨hpr,hpr'⟩ := h.inside p r ht
      simp only [Barrier.leave, hqp, Function.update_self]
      omega
    · simp only [Barrier.leave, Function.update_of_ne hqp] at hq ⊢
      exact h.out q hq
  · intro q x hq
    by_cases hqp : q = p
    · simp [Barrier.leave, hqp] at hq
    · simp only [Barrier.leave, Function.update_of_ne hqp] at hq ⊢
      exact h.inside q x hq

end
end Barrier
