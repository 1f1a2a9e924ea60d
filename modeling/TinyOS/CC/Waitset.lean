import TinyOS.CC.Model
import TinyOS.Lib.Cycle

/-! The rings of the condition variables. -/
namespace TinyOS.CC
open RList Ring
variable {τ κ μ : Type*} [DecidableEq τ] [DecidableEq κ] [DecidableEq μ]

/-- The ring of each condition variable holds L, from its waitset on. -/
structure Rings (heap : Heap WaiterRef WaiterRef) (waitset : CondVar κ → Option WaiterRef)
    (L : CondVar κ → List WaiterRef) : Prop where
  linked : Linked heap
  cycles : Cycles heap.next L
  key : heap.key = id
  head : ∀ c, waitset c = (L c).head?

namespace Rings
variable {heap : Heap WaiterRef WaiterRef} {waitset : CondVar κ → Option WaiterRef}
variable {L : CondVar κ → List WaiterRef} {c : CondVar κ} {w : WaiterRef}

omit [DecidableEq κ]

theorem prev_single (h : Rings heap waitset L) (hw : ∀ c, w∉L c) : heap.prev w = w :=
  h.linked.prev_eq (h.cycles.single w hw)

theorem next_prev (h : Rings heap waitset L) (w : WaiterRef) : heap.next (heap.prev w) = w :=
  h.linked.nextPrev w

theorem prev_mem (h : Rings heap waitset L) (hw : w∈L c) : heap.prev w∈L c := by
  have hn := h.next_prev w
  by_cases hm : ∃ d, heap.prev w∈L d
  · obtain ⟨d,hd⟩ := hm
    have := h.cycles.next_mem hd
    rw [hn] at this
    rwa [h.cycles.disjoint c d w hw this]
  · rw [not_exists] at hm
    rw [h.cycles.single _ hm] at hn
    exact absurd (hn.symm ▸ hw) (hm c)

theorem next_head (h : Rings heap waitset L) {l : List WaiterRef} (hl : L c = w::l) :
    heap.next w = (l.head?).getD w := by
  have hw : w∈L c := by simp [hl]
  have hn := h.cycles.nodup c
  rw [h.cycles.next c w hw, hl]
  rw [hl] at hn
  cases l with
  | nil => simp
  | cons y l => rw [List.formPerm_apply_head w y l hn, List.head?_cons, Option.getD_some]

theorem init (h : Rings heap waitset L) (hw : ∀ c, w∉L c) : rlnodeInit heap w w = heap := by
  have hn : Function.update heap.next w w = heap.next := by
    rw [Function.update_eq_self_iff, h.cycles.single w hw]
  have hp : Function.update heap.prev w w = heap.prev := by
    rw [Function.update_eq_self_iff, h.prev_single hw]
  have hk : Function.update heap.key w w = heap.key := by
    rw [Function.update_eq_self_iff, h.key]
    rfl
  ext x
  · exact congrFun hk x
  · exact congrFun hp x
  · exact congrFun hn x

variable [DecidableEq κ]

theorem push_nil (h : Rings heap waitset L) (hc : L c = []) (hw : ∀ d, w∉L d) :
    Rings heap (Function.update waitset c (some w)) (Function.update L c [w]) := by
  refine ⟨h.linked,h.cycles.push_nil hc hw,h.key,fun d => ?_⟩
  by_cases hd : d = c
  · subst hd
    simp
  · simp [hd, h.head d]

theorem push_back (h : Rings heap waitset L) {a : WaiterRef} (ha : (L c).head? = some a)
    (hw : ∀ d, w∉L d) :
    Rings (rlistPushBack heap a w) waitset (Function.update L c (L c++[w])) := by
  have hne : L c≠[] := by
    rintro he
    simp [he] at ha
  obtain ⟨l,hl⟩ : ∃ l, L c = a::l := by
    cases hL : L c with
    | nil => exact absurd hL hne
    | cons b l =>
      rw [hL, List.head?_cons, Option.some.injEq] at ha
      exact ⟨l,by rw [ha]⟩
  have hlast : heap.prev a = (L c).getLast hne := by
    refine h.linked.prev_eq ?_
    rw [h.cycles.next c _ (List.getLast_mem hne)]
    simp only [hl]
    exact List.formPerm_apply_getLast a l
  refine ⟨h.linked.rlSplice _ _,?_,h.key,fun d => ?_⟩
  · rw [rlistPushBack, rlSplice_next, hlast]
    exact h.cycles.push_back hne hw
  · by_cases hd : d = c
    · subst hd
      rw [Function.update_self, h.head d, hl]
      rfl
    · rw [Function.update_of_ne hd, h.head d]

theorem remove (h : Rings heap waitset L) (hw : w∈L c) :
    Rings (rlistRemove heap w)
      (if waitset c = some w then Function.update waitset c
        (if heap.key (heap.next w) = w then none else some (heap.key (heap.next w))) else waitset)
      (Function.update L c ((L c).erase w)) := by
  refine ⟨h.linked.rlSplice _ _,?_,h.key,fun d => ?_⟩
  · rw [rlistRemove, rlSplice_next]
    exact h.cycles.remove hw (h.prev_mem hw) (h.next_prev w)
  by_cases hd : d = c
  · subst hd
    rw [Function.update_self]
    have hn := h.cycles.nodup d
    cases hL : L d with
    | nil => simp [hL] at hw
    | cons a l =>
      rw [hL] at hn
      by_cases ha : a = w
      · subst ha
        rw [h.head d, hL, List.head?_cons, if_pos rfl, Function.update_self, h.key, h.next_head hL,
          List.erase_cons_head, id]
        cases l with
        | nil => simp
        | cons b l =>
          have hba : b≠a := by
            rintro rfl
            simp at hn
          simp [hba]
      · rw [h.head d, hL, List.head?_cons, if_neg (by simpa using ha), h.head d, hL,
          List.erase_cons_tail (by simpa using ha)]
        rfl
  · rw [Function.update_of_ne hd]
    split
    · rw [Function.update_of_ne hd, h.head d]
    · exact h.head d

end Rings

section Ops
variable {s : State τ κ μ} {L : CondVar κ → List WaiterRef} {c : CondVar κ} {w : WaiterRef}

omit [DecidableEq τ] [DecidableEq κ] [DecidableEq μ] in
theorem touches_of_mem (h : Rings s.heap s.waitset L)
    (hlive : ∀ c, ∀ x∈L c, (s.waiters x).isSome = true) (hw : w∈L c) : s.touches w = true := by
  simp [State.touches, hlive c w hw, hlive c _ (h.cycles.next_mem hw), hlive c _ (h.prev_mem hw)]

omit [DecidableEq τ] [DecidableEq κ] [DecidableEq μ] in
theorem touches_single (h : Rings s.heap s.waitset L) (hw : ∀ c, w∉L c)
    (hlw : (s.waiters w).isSome = true) : s.touches w = true := by
  simp [State.touches, hlw, h.cycles.single w hw, h.prev_single hw]

omit [DecidableEq τ] [DecidableEq μ] in
theorem pushWaiter_eq (h : Rings s.heap s.waitset L)
    (hlive : ∀ c, ∀ x∈L c, (s.waiters x).isSome = true) (hw : ∀ c, w∉L c)
    (hlw : (s.waiters w).isSome = true) :
    ∃ heap waitset, pushWaiter s c w = some { s with heap := heap, waitset := waitset } ∧
      Rings heap waitset (Function.update L c (L c++[w])) := by
  cases ha : s.waitset c with
  | none =>
    have hc : L c = [] := by
      rw [h.head c] at ha
      simpa using ha
    refine ⟨s.heap,_,by rw [pushWaiter, ha],?_⟩
    rw [hc]
    exact h.push_nil hc hw
  | some a =>
    have hhead := (h.head c).symm.trans ha
    have ham : a∈L c := List.mem_of_mem_head? hhead
    refine ⟨rlistPushBack s.heap a w,s.waitset,?_,h.push_back hhead hw⟩
    simp [pushWaiter, ha, touches_of_mem h hlive ham, touches_single h hw hlw]

omit [DecidableEq τ] [DecidableEq μ] in
theorem removeFromRing_eq (h : Rings s.heap s.waitset L)
    (hlive : ∀ c, ∀ x∈L c, (s.waiters x).isSome = true) (hw : w∈L c) :
    ∃ heap waitset, removeFromRing s c w = some { s with heap := heap, waitset := waitset } ∧
      Rings heap waitset (Function.update L c ((L c).erase w)) :=
  ⟨_,_,by rw [removeFromRing, if_pos (touches_of_mem h hlive hw)],h.remove hw⟩

end Ops
end TinyOS.CC
