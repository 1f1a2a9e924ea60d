import Mathlib.Algebra.Ring.Nat
import Mathlib.Logic.Basic

/-! Labelled transition systems with partial steps. A label fixes every choice of
its step, so runs are lists of labels and can be evaluated. -/
namespace Transition
variable {σ α : Type*}

/-! Runs are evaluated over Fin 1 and Fin 2. -/

instance oneNeZero : NeZero 1 := ⟨Nat.succ_ne_zero 0⟩

instance twoNeZero : NeZero 2 := ⟨Nat.succ_ne_zero 1⟩

structure System (σ α : Type*) where
  init : σ → Prop
  next : σ → α → Option σ

inductive System.Reachable (M : System σ α) : σ → Prop where
  | init {s : σ} (h : M.init s) : M.Reachable s
  | step {s s' : σ} {a : α} (hr : M.Reachable s) (h : M.next s a = some s') : M.Reachable s'

/-- An invariant holds initially and is kept by every step. -/
theorem System.invariant (M : System σ α) (P : σ → Prop) (h0 : ∀ s, M.init s → P s)
    (hs : ∀ s a s', P s → M.next s a = some s' → P s') {s : σ}
    (hr : M.Reachable s) : P s := by
  induction hr with
  | init h => exact h0 _ h
  | step _ h ih => exact hs _ _ _ ih h

/-- Take only the steps that meet a condition on the state before them. -/
def System.restrict (M : System σ α) (C : σ → α → Prop) [∀ s a, Decidable (C s a)] :
    System σ α where
  init := M.init
  next s a := if C s a then M.next s a else none

theorem System.restrict_next {M : System σ α} {C : σ → α → Prop}
    [∀ s a, Decidable (C s a)] {s s' : σ} {a : α} (h : (M.restrict C).next s a = some s') :
    C s a ∧ M.next s a = some s' := by
  simp only [System.restrict] at h
  split at h
  · exact ⟨‹C s a›, h⟩
  · cases h

theorem System.Reachable.of_restrict {M : System σ α} {C : σ → α → Prop}
    [∀ s a, Decidable (C s a)] {s : σ} (h : (M.restrict C).Reachable s) : M.Reachable s := by
  induction h with
  | init h => exact .init h
  | step _ h ih => exact .step ih (System.restrict_next h).2

def System.run (M : System σ α) : σ → List α → Option σ
  | s, [] => some s
  | s, a::as => (M.next s a).bind fun s' => M.run s' as

theorem System.reachable_run (M : System σ α) {s s' : σ} (as : List α)
    (hr : M.Reachable s) (h : M.run s as = some s') : M.Reachable s' := by
  induction as generalizing s with
  | nil =>
    simp only [System.run, Option.some.injEq] at h
    exact h ▸ hr
  | cons a as ih =>
    obtain ⟨t,ht,hrun⟩ := Option.bind_eq_some_iff.mp h
    exact ih (.step hr ht) hrun

/-- Where each step takes from a number, it bounds the runs. -/
theorem System.run_length_le (M : System σ α) (P : σ → Prop) (left : σ → Nat)
    (hs : ∀ s a s', P s → M.next s a = some s' → P s' ∧ left s' < left s) {s t : σ}
    {as : List α} (h : P s) (hrun : M.run s as = some t) : as.length ≤ left s := by
  induction as generalizing s with
  | nil => exact Nat.zero_le _
  | cons a as ih =>
    obtain ⟨s',ha,hrest⟩ := Option.bind_eq_some_iff.mp hrun
    obtain ⟨h',hlt⟩ := hs s a s' h ha
    exact Nat.lt_of_le_of_lt (ih h' hrest) hlt

/-- Where some step takes from a number until the end is reached, the end can be reached. -/
theorem System.can_end (M : System σ α) (P done : σ → Prop) (left : σ → Nat)
    (hs : ∀ s, P s → ¬done s → ∃ a s', M.next s a = some s' ∧ P s' ∧ left s' < left s) {s : σ}
    (h : P s) : ∃ as t, M.run s as = some t ∧ as.length ≤ left s ∧ P t ∧ done t := by
  generalize hk : left s = k
  induction k using Nat.strong_induction_on generalizing s with
  | _ k ih =>
    by_cases hd : done s
    · exact ⟨[],s,rfl,Nat.zero_le _,h,hd⟩
    · obtain ⟨a,s',ha,h',hlt⟩ := hs s h hd
      obtain ⟨as,t,hrun,hlen,ht⟩ := ih (left s') (hk ▸ hlt) h' rfl
      refine ⟨a::as,t,?_,?_,ht⟩
      · rw [System.run, ha]
        exact hrun
      · rw [List.length_cons]
        omega

/-- Where each step of one party takes from a number, no other step adds to it, and the party
can always go on, it has come to its end or has made no more steps of its own than that. -/
theorem System.own_steps [DecidableEq α] (M : System σ α) (own : α) (P done : σ → Prop)
    (left : σ → Nat)
    (hs : ∀ s a s', P s → ¬done s → M.next s a = some s' →
      P s' ∧ left s'+(if a = own then 1 else 0) ≤ left s)
    (hgo : ∀ s, P s → ¬done s → ∃ s', M.next s own = some s')
    {s t : σ} {as : List α} (h : P s) (hrun : M.run s as = some t) :
    (∃ pre u, pre<+:as ∧ M.run s pre = some u ∧ P u ∧ done u) ∨
      as.count own ≤ left s ∧ ∃ t', M.next t own = some t' := by
  induction as generalizing s with
  | nil =>
    cases hrun
    by_cases hd : done t
    · exact .inl ⟨[],t,List.prefix_refl _,rfl,h,hd⟩
    · exact .inr ⟨by simp,hgo t h hd⟩
  | cons a as ih =>
    by_cases hd : done s
    · exact .inl ⟨[],s,List.nil_prefix,rfl,h,hd⟩
    · obtain ⟨s',ha,hrest⟩ := Option.bind_eq_some_iff.mp hrun
      obtain ⟨h',hle⟩ := hs s a s' h hd ha
      rcases ih h' hrest with ⟨pre,u,hpre,hu,hPu⟩ | ⟨hlen,ht⟩
      · refine .inl ⟨a::pre,u,(List.prefix_cons_inj a).mpr hpre,?_,hPu⟩
        rw [System.run, ha]
        exact hu
      · refine .inr ⟨?_,ht⟩
        rw [List.count_cons]
        simp only [beq_iff_eq]
        omega

def System.Along (M : System σ α) (P : σ → Prop) : σ → List α → Prop
  | s, [] => P s
  | s, a::as => P s ∧ ∀ s', M.next s a = some s' → M.Along P s' as

theorem System.Along.head {M : System σ α} {P : σ → Prop} {s : σ} {as : List α}
    (h : M.Along P s as) : P s := by
  cases as with
  | nil => exact h
  | cons a as => exact h.1

theorem System.Along.split {M : System σ α} {P : σ → Prop} {s s' : σ} {a : α} (pre post : List α)
    (h : M.Along P s (pre++a::post)) (hrun : M.run s pre = some s') :
    P s' ∧ ∀ s'', M.next s' a = some s'' → P s'' := by
  induction pre generalizing s with
  | nil =>
    cases hrun
    exact ⟨h.1,fun s'' hs => (h.2 s'' hs).head⟩
  | cons b pre ih =>
    obtain ⟨t,ht,hrun⟩ := Option.bind_eq_some_iff.mp hrun
    exact ih (h.2 t ht) hrun

theorem System.reaches (M : System σ α) {s : σ} (hs : M.init s) (as : List α) (P : σ → Prop)
    [DecidablePred P] (h : (M.run s as).any (fun s' => decide (P s')) = true) :
    ∃ s', M.Reachable s' ∧ P s' := by
  cases hrun : M.run s as with
  | none => simp [hrun] at h
  | some s' =>
    rw [hrun, Option.any_some] at h
    exact ⟨s',M.reachable_run as (.init hs) hrun,of_decide_eq_true h⟩

end Transition
