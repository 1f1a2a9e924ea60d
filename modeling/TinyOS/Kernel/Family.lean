import TinyOS.Kernel.Proc
import Mathlib.Data.List.Basic

/-! The rings of children and exited children as lists of processes. -/
namespace TinyOS.Kernel
open RList

inductive Kin where
  | children (p : PcbRef)
  | exited (p : PcbRef)
  deriving DecidableEq

def kinList : Kin → PNode
  | .children p => .childrenList p
  | .exited p => .exitedList p

def kinNode : Kin → PcbRef → PNode
  | .children _, c => .childrenNode c
  | .exited _, c => .exitedNode c

/-- Each ring holds the processes of L, through the node for its kind; all other nodes
are singletons. -/
structure Family (h : Heap PNode (Option PcbRef)) (L : Kin → List PcbRef) : Prop where
  rings : Represents h kinList fun k => (L k).map (kinNode k)
  key : h.key = pnodeKey

theorem kinNode_ne_kinList (j k : Kin) (c : PcbRef) : kinNode j c≠kinList k := by
  cases j <;> cases k <;> simp [kinNode, kinList]

@[simp] theorem pnodeKey_kinNode (k : Kin) (c : PcbRef) : pnodeKey (kinNode k c) = some c := by
  cases k <;> rfl

theorem update_kin (L : Kin → List PcbRef) (k : Kin) (l : List PcbRef) :
    Function.update (fun j => (L j).map (kinNode j)) k (l.map (kinNode k)) =
      fun j => (Function.update L k l j).map (kinNode j) := by
  funext j
  by_cases hj : j = k
  · subst hj
    simp
  · simp [hj]

theorem kinNode_eq {j k : Kin} {c d : PcbRef} (h : kinNode j d = kinNode k c) : d = c := by
  simpa using congrArg pnodeKey h

theorem kinNode_injective (k : Kin) : Function.Injective (kinNode k) := fun _ _ => kinNode_eq

theorem not_mem_rings {L : Kin → List PcbRef} {k : Kin} {c : PcbRef}
    (hc : ∀ j, kinNode j c = kinNode k c → c∉L j) (j : Kin) :
    kinNode k c∉(L j).map (kinNode j) := by
  intro hm
  obtain ⟨d,hd,he⟩ := List.mem_map.mp hm
  obtain rfl := kinNode_eq he
  exact hc j he hd

namespace Family
variable {h : Heap PNode (Option PcbRef)} {L : Kin → List PcbRef} {k : Kin} {c : PcbRef}

theorem nodup (hf : Family h L) (k : Kin) : (L k).Nodup :=
  List.Nodup.of_map _ (hf.rings.lists.nodup k)

theorem isEmpty_iff (hf : Family h L) (k : Kin) :
    isRlistEmpty h (kinList k) = true ↔ L k = [] := by
  simpa using hf.rings.isRlistEmpty_iff (i := k)

theorem isEmpty_children (hf : Family h L) (p : PcbRef) :
    isRlistEmpty h (.childrenList p) = decide (L (.children p) = []) :=
  Bool.eq_iff_iff.mpr ((hf.isEmpty_iff (.children p)).trans (by simp))

theorem isEmpty_exited (hf : Family h L) (p : PcbRef) :
    isRlistEmpty h (.exitedList p) = decide (L (.exited p) = []) :=
  Bool.eq_iff_iff.mpr ((hf.isEmpty_iff (.exited p)).trans (by simp))

theorem disjoint {j : Kin} (hf : Family h L) (hj : c∈L j) (hk : c∈L k)
    (hn : kinNode j c = kinNode k c) : j = k :=
  hf.rings.lists.disjoint j k (kinNode j c) (List.mem_map_of_mem hj)
    (hn ▸ List.mem_map_of_mem hk)

theorem next_list {l : List PcbRef} (hf : Family h L) (hk : L k = c::l) :
    h.key (h.next (kinList k)) = some c := by
  have hi : (L k).map (kinNode k) = kinNode k c::l.map (kinNode k) := by simp [hk]
  have hn := hf.rings.next_head (i := k) hi
  rw [hf.key, hn, pnodeKey_kinNode]

theorem single (hf : Family h L) (hc : ∀ j, kinNode j c = kinNode k c → c∉L j) :
    h.next (kinNode k c) = kinNode k c ∧ h.prev (kinNode k c) = kinNode k c := by
  have hl := not_mem_rings hc
  exact ⟨hf.rings.lists.single _ (fun j => kinNode_ne_kinList k j c) hl,
    hf.rings.prev_single (fun j => kinNode_ne_kinList k j c) hl⟩

theorem push_front (hf : Family h L) (hc : ∀ j, kinNode j c = kinNode k c → c∉L j) :
    Family (rlistPushFront h (kinList k) (kinNode k c)) (Function.update L k (c::L k)) := by
  have hl := not_mem_rings hc
  have hp := hf.rings.rlistPushFront (i := k) (fun j => kinNode_ne_kinList k j c) hl
  rw [← List.map_cons, update_kin] at hp
  exact ⟨hp,hf.key⟩

theorem pop_front {l : List PcbRef} (hf : Family h L) (hk : L k = c::l) :
    (rlistPopFront h (kinList k)).2 = kinNode k c ∧
      Family (rlistPopFront h (kinList k)).1 (Function.update L k l) := by
  have hi : (L k).map (kinNode k) = kinNode k c::l.map (kinNode k) := by simp [hk]
  obtain ⟨hx,hp⟩ := hf.rings.rlistPopFront_cons (i := k) hi
  rw [update_kin] at hp
  exact ⟨hx,hp,hf.key⟩

theorem remove (hf : Family h L) (hc : c∈L k) :
    Family (rlistRemove h (kinNode k c)) (Function.update L k ((L k).erase c)) := by
  have hp := hf.rings.rlistRemove (i := k) (List.mem_map_of_mem hc)
  rw [← List.map_erase (kinNode_injective k), update_kin] at hp
  exact ⟨hp,hf.key⟩

theorem append {p q : PcbRef} (hf : Family h L) (hpq : p≠q) :
    Family (rlistAppend h (.exitedList p) (.exitedList q))
      (Function.update (Function.update L (.exited p) (L (.exited p)++L (.exited q))) (.exited q)
      []) := by
  have hp := hf.rings.rlistAppend (i := .exited p) (j := .exited q) (by simpa using hpq)
  have he : (L (.exited p)).map (kinNode (.exited p))++(L (.exited q)).map (kinNode (.exited q)) =
      (L (.exited p)++L (.exited q)).map (kinNode (.exited p)) := by
    simp [kinNode]
  rw [he, update_kin] at hp
  have := update_kin (Function.update L (.exited p) (L (.exited p)++L (.exited q))) (.exited q) []
  rw [List.map_nil] at this
  rw [this] at hp
  exact ⟨hp,hf.key⟩

end Family
end TinyOS.Kernel
