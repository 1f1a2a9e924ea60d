import TinyOS.Sched.Model
import Mathlib.Data.List.Basic

/-! SCHED and TIMEOUT_LIST as lists of threads. -/
namespace TinyOS.Sched
open RList
variable {κ τ : Type*}

inductive Queue where
  | ready | timers
  deriving DecidableEq

def head : Queue → Node κ τ
  | .ready => .SCHED
  | .timers => .TIMEOUT_LIST

abbrev node (t : τ) : Node κ τ := .schedNode (.normal t)

def nodes (q tl : List τ) : Queue → List (Node κ τ)
  | .ready => q.map node
  | .timers => tl.map node

def Holding (h : Heap (Node κ τ) (Option (TcbRef κ τ))) (q tl : List τ) : Prop :=
  Represents h head (nodes q tl)

theorem node_injective : Function.Injective (node : τ → Node κ τ) := by
  intro a b h
  cases h
  rfl

theorem schedNode_ne_head (r : TcbRef κ τ) (i : Queue) : Node.schedNode r≠head i := by
  cases i <;> simp [head]

theorem node_mem_nodes {q tl : List τ} {t : τ} (hq : t∉q) (htl : t∉tl) (i : Queue) :
    (node t : Node κ τ)∉nodes q tl i := by
  cases i <;> simpa [nodes, node_injective.eq_iff]

theorem idle_mem_nodes (q tl : List τ) (c : κ) (i : Queue) :
    Node.schedNode (.idle c)∉nodes (κ := κ) q tl i := by
  cases i <;> simp [nodes, node]

theorem update_ready (q q' tl : List τ) :
    Function.update (nodes (κ := κ) q tl) .ready (q'.map node) = nodes q' tl := by
  funext i
  cases i <;> simp [nodes]

theorem update_timers (q tl tl' : List τ) :
    Function.update (nodes (κ := κ) q tl) .timers (tl'.map node) = nodes q tl' := by
  funext i
  cases i <;> simp [nodes]

namespace Holding
variable {h : Heap (Node κ τ) (Option (TcbRef κ τ))} {q tl : List τ} {t : τ}

theorem nodup_ready (hr : Holding h q tl) : q.Nodup :=
  List.Nodup.of_map _ (hr.lists.nodup .ready)

theorem nodup_timers (hr : Holding h q tl) : tl.Nodup :=
  List.Nodup.of_map _ (hr.lists.nodup .timers)

theorem next_timers_ne (hr : Holding h q tl) (ht : t∈tl) : h.next (node t)≠node t :=
  Represents.next_mem_ne (i := Queue.timers) hr (List.mem_map_of_mem ht)

theorem next_timers (hr : Holding h q (t::tl)) : h.next .TIMEOUT_LIST = node t :=
  Represents.next_head (i := Queue.timers) hr rfl

theorem next_timer {us vs : List τ} (hr : Holding h q (us++t::vs)) :
    h.next (node t) = (vs.map node++[Node.TIMEOUT_LIST]).head (by simp) :=
  Represents.next_mem (i := Queue.timers) hr (us.map node) _ (by simp [nodes])

theorem next_timeout_list (hr : Holding h q tl) :
    h.next .TIMEOUT_LIST = (tl.map node++[Node.TIMEOUT_LIST]).head (by simp) := by
  cases tl with
  | nil => exact hr.lists.path .timers
  | cons t tl => exact hr.next_timers

variable [DecidableEq κ] [DecidableEq τ]

theorem push_back (hr : Holding h q tl) (hq : t∉q) (htl : t∉tl) :
    Holding (rlistPushBack h .SCHED (node t)) (q++[t]) tl := by
  have hp := Represents.rlistPushBack (i := Queue.ready) hr (x := node t)
    (schedNode_ne_head _) (node_mem_nodes hq htl)
  have he : nodes (κ := κ) q tl .ready++[node t] = (q++[t]).map node := by simp [nodes]
  rwa [he, update_ready] at hp

theorem remove_timer (hr : Holding h q tl) (ht : t∈tl) :
    Holding (rlistRemove h (node t)) q (tl.erase t) := by
  have hp := Represents.rlistRemove (i := Queue.timers) hr (List.mem_map_of_mem ht)
  have he : (nodes (κ := κ) q tl .timers).erase (node t) = (tl.erase t).map node :=
    (List.map_erase node_injective tl).symm
  rwa [he, update_timers] at hp

theorem pop_cons (hr : Holding h (t::q) tl) :
    (rlistPopFront h .SCHED).2 = node t ∧ Holding (rlistPopFront h .SCHED).1 q tl := by
  obtain ⟨hx,hp⟩ := Represents.rlistPopFront_cons (i := Queue.ready) hr rfl
  exact ⟨hx,by rwa [update_ready] at hp⟩

theorem pop_nil (hr : Holding h [] tl) : rlistPopFront h .SCHED = (h,.SCHED) :=
  Represents.rlistPopFront_nil (i := Queue.ready) hr rfl

theorem insert_timer {us vs : List τ} (hr : Holding h q (us++vs)) (hq : t∉q) (htl : t∉us++vs)
    {n : Node κ τ} (hn : n = (vs.map node++[Node.TIMEOUT_LIST]).head (by simp)) :
    Holding (rlSplice h (h.prev n) (node t)) q (us++t::vs) := by
  have hp := Represents.insertBefore (i := Queue.timers) hr (us.map node) (vs.map node)
    (x := node t) (by simp [nodes]) (schedNode_ne_head _) (node_mem_nodes hq htl) hn
  have he : us.map node++node t::vs.map node = (us++t::vs).map (node : τ → Node κ τ) := by simp
  rwa [he, update_timers] at hp

theorem isEmpty_timers (hr : Holding h q tl) : isRlistEmpty h .TIMEOUT_LIST = true ↔ tl = [] := by
  have := Represents.isRlistEmpty_iff (i := Queue.timers) hr
  simpa [nodes, head] using this

theorem init_node {r : TcbRef κ τ} (hr : Holding h q tl)
    (hn : ∀ i, Node.schedNode r∉nodes q tl i) (k : Option (TcbRef κ τ)) :
    Holding (rlnodeInit h (.schedNode r) k) q tl ∧
      (rlnodeInit h (.schedNode r) k).key = Function.update h.key (.schedNode r) k := by
  rw [Represents.rlnodeInit hr (schedNode_ne_head r) hn]
  exact ⟨⟨⟨hr.linked.prevNext,hr.linked.nextPrev⟩,hr.lists⟩,rfl⟩

end Holding
end TinyOS.Sched
