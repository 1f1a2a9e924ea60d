import Mathlib.Data.Set.Insert
import TinyOS.Util.RList

/-! The list functions of util.h over many lists at once. An abstract state is a sequence
of nodes for each sentinel, and the nodes that are known to be singletons; memory may hold
any other rings besides. -/
namespace TinyOS.RList
open Ring
variable {ν κ ι : Type*}

section
variable [DecidableEq ν]

def rlistPopBack (h : Heap ν κ) (list : ν) : Heap ν κ × ν :=
  (rlSplice h list (h.prev list),h.prev list)

def rlistPrepend (h : Heap ν κ) (ldest lsrc : ν) : Heap ν κ :=
  rlistRemove (rlistPushFront h ldest lsrc) lsrc

/-- while(p!=list), with an unsigned int count -/
def lenLoop (h : Heap ν κ) (list : ν) : Nat → ν → UInt32 → Option UInt32
  | 0, _, _ => none
  | fuel+1, p, count => if p≠list then lenLoop h list fuel (h.next p) (count+1) else some count

def rlistLen (h : Heap ν κ) (list : ν) (fuel : Nat) : Option Nat :=
  (lenLoop h list fuel (h.next list) 0).map UInt32.toNat

/-- while(i1!=L1) -/
def equalLoop [DecidableEq κ] (h : Heap ν κ) (l1 l2 : ν) : Nat → ν → ν → Option Bool
  | 0, _, _ => none
  | fuel+1, i1, i2 =>
    if i1≠l1 then
      if i2 = l2 ∨ h.key i1≠h.key i2 then some false
      else equalLoop h l1 l2 fuel (h.next i1) (h.next i2)
    else some (decide (i2 = l2))

def rlistEqual [DecidableEq κ] (h : Heap ν κ) (l1 l2 : ν) (fuel : Nat) : Option Bool :=
  equalLoop h l1 l2 fuel (h.next l1) (h.next l2)

/-- while(i!=List) -/
def findLoop [DecidableEq κ] (h : Heap ν κ) (list : ν) (key : κ) (fail : ν) :
    Nat → ν → Option ν
  | 0, _ => none
  | fuel+1, i =>
    if i≠list then
      if h.key i = key then some i else findLoop h list key fail fuel (h.next i)
    else some fail

def rlistFind [DecidableEq κ] (h : Heap ν κ) (list : ν) (key : κ) (fail : ν) (fuel : Nat) :
    Option ν :=
  findLoop h list key fail fuel (h.next list)

/-! The loops, from a place in the list on. -/

variable {h : Heap ν κ} {a b : ν}

theorem lenLoop_eq {l : List ν} (hp : Path h.next l a) (ha : a∉l) (fuel : Nat)
    (hf : l.length < fuel) (count : UInt32) :
    lenLoop h a fuel ((l++[a]).head (by simp)) count = some (count+UInt32.ofNat l.length) := by
  induction l generalizing fuel count with
  | nil =>
    obtain ⟨fuel,rfl⟩ := Nat.exists_eq_succ_of_ne_zero (Nat.ne_of_gt hf)
    simp [lenLoop]
  | cons b l ih =>
    obtain ⟨fuel,rfl⟩ := Nat.exists_eq_succ_of_ne_zero (Nat.ne_of_gt (Nat.zero_lt_of_lt hf))
    obtain ⟨hb,hp⟩ := (path_cons h.next b a l).mp hp
    have hne : b≠a := fun he => ha (he ▸ List.mem_cons_self)
    have hnext := ih hp (fun hm => ha (List.mem_cons_of_mem b hm)) fuel
      (by simpa using hf) (count+1)
    rw [← hb] at hnext
    have hcount : count+1+UInt32.ofNat l.length = count+UInt32.ofNat (l.length+1) := by
      rw [UInt32.ofNat_add, UInt32.add_assoc, UInt32.add_comm 1]
      rfl
    simp only [List.cons_append, List.head_cons, lenLoop, if_pos hne, hnext, hcount,
      List.length_cons]

theorem equalLoop_eq [DecidableEq κ] {l m : List ν} (hl : Path h.next l a)
    (hm : Path h.next m b) (ha : a∉l) (hb : b∉m) (fuel : Nat) (hf : l.length < fuel) :
    equalLoop h a b fuel ((l++[a]).head (by simp)) ((m++[b]).head (by simp)) =
      some (decide (l.map h.key = m.map h.key)) := by
  induction l generalizing m fuel with
  | nil =>
    obtain ⟨fuel,rfl⟩ := Nat.exists_eq_succ_of_ne_zero (Nat.ne_of_gt hf)
    cases m with
    | nil => simp [equalLoop]
    | cons d m =>
      have hne : d≠b := fun he => hb (he ▸ List.mem_cons_self)
      simp [equalLoop, hne]
  | cons c l ih =>
    obtain ⟨fuel,rfl⟩ := Nat.exists_eq_succ_of_ne_zero (Nat.ne_of_gt (Nat.zero_lt_of_lt hf))
    obtain ⟨hc,hl⟩ := (path_cons h.next c a l).mp hl
    have hne : c≠a := fun he => ha (he ▸ List.mem_cons_self)
    cases m with
    | nil => simp [equalLoop, hne]
    | cons d m =>
      obtain ⟨hd,hm⟩ := (path_cons h.next d b m).mp hm
      have hne' : d≠b := fun he => hb (he ▸ List.mem_cons_self)
      have hnext := ih hl hm (fun hx => ha (List.mem_cons_of_mem c hx))
        (fun hx => hb (List.mem_cons_of_mem d hx)) fuel (by simpa using hf)
      rw [← hc, ← hd] at hnext
      simp only [List.cons_append, List.head_cons, equalLoop, if_pos hne, hne', false_or,
        hnext, List.map_cons, List.cons.injEq]
      by_cases hkey : h.key c = h.key d
      · simp [hkey]
      · simp [hkey]

theorem findLoop_eq [DecidableEq κ] {l : List ν} (hp : Path h.next l a) (ha : a∉l) (key : κ)
    (fail : ν) (fuel : Nat) (hf : l.length < fuel) :
    findLoop h a key fail fuel ((l++[a]).head (by simp)) =
      some ((l.find? fun x => h.key x = key).getD fail) := by
  induction l generalizing fuel with
  | nil =>
    obtain ⟨fuel,rfl⟩ := Nat.exists_eq_succ_of_ne_zero (Nat.ne_of_gt hf)
    simp [findLoop]
  | cons b l ih =>
    obtain ⟨fuel,rfl⟩ := Nat.exists_eq_succ_of_ne_zero (Nat.ne_of_gt (Nat.zero_lt_of_lt hf))
    obtain ⟨hb,hp⟩ := (path_cons h.next b a l).mp hp
    have hne : b≠a := fun he => ha (he ▸ List.mem_cons_self)
    have hnext := ih hp (fun hm => ha (List.mem_cons_of_mem b hm)) fuel (by simpa using hf)
    rw [← hb] at hnext
    simp only [List.cons_append, List.head_cons, findLoop, if_pos hne, hnext]
    by_cases hkey : h.key b = key
    · simp [hkey]
    · simp [hkey]

end

/-- A sequence of nodes for each sentinel, and the nodes that are singletons. -/
structure Sequences (ν ι : Type*) where
  lists : ι → List ν
  free : Set ν

inductive Op (ν ι : Type*) where
  | pushFront (i : ι) (x : ν) | pushBack (i : ι) (x : ν)
  | popFront (i : ι) | popBack (i : ι)
  | remove (x : ν)
  | append (i j : ι) | prepend (i j : ι)

/-- Singletons are pushed; what is removed is in a list or a singleton; two sentinels differ. -/
def Op.Allowed (A : Sequences ν ι) : Op ν ι → Prop
  | .pushFront _ x | .pushBack _ x => x∈A.free
  | .popFront _ | .popBack _ => True
  | .remove x => x∈A.free ∨ ∃ i, x∈A.lists i
  | .append i j | .prepend i j => i≠j

section
variable [DecidableEq ν] [DecidableEq ι]

def Op.apply (head : ι → ν) (A : Sequences ν ι) : Op ν ι → Sequences ν ι × Option ν
  | .pushFront i x => (⟨Function.update A.lists i (x::A.lists i),A.free\{x}⟩,none)
  | .pushBack i x => (⟨Function.update A.lists i (A.lists i++[x]),A.free\{x}⟩,none)
  | .popFront i =>
    match A.lists i with
    | [] => (A,some (head i))
    | x::xs => (⟨Function.update A.lists i xs,insert x A.free⟩,some x)
  | .popBack i =>
    match (A.lists i).getLast? with
    | none => (A,some (head i))
    | some x => (⟨Function.update A.lists i (A.lists i).dropLast,insert x A.free⟩,some x)
  | .remove x => (⟨fun i => (A.lists i).erase x,insert x A.free⟩,some x)
  | .append i j =>
    (⟨Function.update (Function.update A.lists i (A.lists i++A.lists j)) j [],A.free⟩,none)
  | .prepend i j =>
    (⟨Function.update (Function.update A.lists i (A.lists j++A.lists i)) j [],A.free⟩,none)

omit [DecidableEq ι] in
def Op.exec (head : ι → ν) (h : Heap ν κ) : Op ν ι → Heap ν κ × Option ν
  | .pushFront i x => (rlistPushFront h (head i) x,none)
  | .pushBack i x => (rlistPushBack h (head i) x,none)
  | .popFront i => (rlistPopFront h (head i)).map id some
  | .popBack i => (rlistPopBack h (head i)).map id some
  | .remove x => (rlistRemove h x,some x)
  | .append i j => (rlistAppend h (head i) (head j),none)
  | .prepend i j => (rlistPrepend h (head i) (head j),none)

end

section
variable [DecidableEq ν] {h : Heap ν κ} {S : Set ν} {a b x : ν}

theorem splice_closed (hS : ∀ x∈S, h.next x∈S) (ha : a∈S) (hb : b∈S) (hx : x∈S) :
    (rlSplice h a b).next x∈S := by
  rw [rlSplice_next]
  by_cases hxa : x = a
  · rw [hxa, splice_left]
    exact hS b hb
  · by_cases hxb : x = b
    · rw [hxb, splice_right]
      exact hS a ha
    · rw [splice_other _ hxa hxb]
      exact hS x hx

theorem splice_outside (hS : ∀ x∈S, h.next x∈S) (ha : a∈S) (hb : b∈S) (hx : x∉S) :
    (rlSplice h a b).next x = h.next x ∧ (rlSplice h a b).prev x = h.prev x := by
  have hne : ∀ y∈S, x≠y := fun y hy he => hx (he ▸ hy)
  constructor
  · rw [rlSplice_next]
    exact splice_other _ (hne a ha) (hne b hb)
  · simp only [rlSplice, rlnodeSwap_eq]
    exact splice_other _ (hne _ (hS a ha)) (hne _ (hS b hb))

end

def Sequences.nodes (head : ι → ν) (A : Sequences ν ι) : Set ν :=
  {x | (∃ i, x∈head i::A.lists i) ∨ x∈A.free}

structure Holds (h : Heap ν κ) (head : ι → ν) (A : Sequences ν ι) : Prop where
  linked : Linked h
  ring : ∀ i, RingOf h.next (head i) (A.lists i)
  apart : ∀ i j, i≠j → head j∉head i::A.lists i
  single : ∀ x∈A.free, h.next x = x ∧ ∀ i, x≠head i

namespace Holds
variable {h h' : Heap ν κ} {head : ι → ν} {A A' : Sequences ν ι} {i j : ι} {x y : ν}

theorem not_mem_other (hh : Holds h head A) (hx : x∈head i::A.lists i) (hij : j≠i) :
    x∉head j::A.lists j :=
  (hh.ring i).disjoint (hh.ring j) (hh.apart i j hij.symm) x hx

theorem free_not_mem (hh : Holds h head A) (hx : x∈A.free) (i : ι) : x∉head i::A.lists i := by
  obtain ⟨hn,hne⟩ := hh.single x hx
  intro hm
  have hxi := (RingOf.single_iff.mpr hn).mem_of_common (hh.ring i) List.mem_cons_self hm
  exact hne i (List.mem_singleton.mp hxi).symm

theorem mem_nodes (hx : x∈head i::A.lists i) : x∈A.nodes head := .inl ⟨i,hx⟩

theorem next_nodes (hh : Holds h head A) (hx : x∈A.nodes head) : h.next x∈A.nodes head := by
  cases hx with
  | inl hx =>
    obtain ⟨i,hi⟩ := hx
    exact .inl ⟨i,(hh.ring i).next_mem hi⟩
  | inr hx =>
    rw [(hh.single x hx).1]
    exact .inr hx

theorem change (hh : Holds h head A) (hl : Linked h')
    (hring : ∀ i, RingOf h'.next (head i) (A'.lists i))
    (hlists : ∀ i, ∀ y∈A'.lists i, (∃ j, y∈A.lists j) ∨ y∈A.free)
    (hfree : ∀ y∈A'.free, h'.next y = y ∧ ∀ i, y≠head i) : Holds h' head A' := by
  refine ⟨hl,hring,fun i j hij hm => ?_,hfree⟩
  have hne : head j≠head i := fun he => hh.apart i j hij (he ▸ List.mem_cons_self)
  cases hlists i _ ((List.mem_cons.mp hm).resolve_left hne) with
  | inl hm =>
    obtain ⟨k,hk⟩ := hm
    by_cases hkj : k = j
    · subst hkj
      exact (List.nodup_cons.mp (hh.ring k).nodup).1 hk
    · exact hh.apart k j hkj (List.mem_cons_of_mem _ hk)
  | inr hm => exact (hh.single _ hm).2 j rfl

variable [DecidableEq ν]

theorem splice_ring (hh : Holds h head A) {a b : ν} (ha : a∈head i::A.lists i ∨ a∈A.free)
    (hb : b∈head i::A.lists i ∨ b∈A.free) (hji : j≠i) :
    RingOf (rlSplice h a b).next (head j) (A.lists j) := by
  have hn : ∀ y, y∈head i::A.lists i ∨ y∈A.free → y∉head j::A.lists j := by
    intro y hy
    cases hy with
    | inl hy => exact hh.not_mem_other hy hji
    | inr hy => exact hh.free_not_mem hy j
  rw [rlSplice_next]
  exact (hh.ring j).other (hn a ha) (hn b hb)

end Holds

theorem nodes_subset {head : ι → ν} {A A' : Sequences ν ι}
    (hlists : ∀ i, ∀ y∈A'.lists i, (∃ j, y∈A.lists j) ∨ y∈A.free)
    (hfree : ∀ y∈A'.free, y∈A.nodes head) : A'.nodes head ⊆ A.nodes head := by
  intro y hy
  cases hy with
  | inl hy =>
    obtain ⟨k,hk⟩ := hy
    cases List.mem_cons.mp hk with
    | inl he => exact .inl ⟨k,he ▸ List.mem_cons_self⟩
    | inr hk => exact (hlists k y hk).imp (fun ⟨j,hj⟩ => ⟨j,List.mem_cons_of_mem _ hj⟩) id
  | inr hy => exact hfree y hy

/-- A change of memory that is one of the sequences, and of nothing else. -/
structure Refined (h : Heap ν κ) (head : ι → ν) (A : Sequences ν ι) (h' : Heap ν κ)
    (A' : Sequences ν ι) : Prop where
  holds : Holds h' head A'
  key : h'.key = h.key
  nodes : A'.nodes head ⊆ A.nodes head
  foreign : ∀ x∉A.nodes head, h'.next x = h.next x ∧ h'.prev x = h.prev x

theorem Refined.trans {h h' h'' : Heap ν κ} {head : ι → ν} {A A' A'' : Sequences ν ι}
    (hr : Refined h head A h' A') (hr' : Refined h' head A' h'' A'') :
    Refined h head A h'' A'' where
  holds := hr'.holds
  key := hr'.key.trans hr.key
  nodes := hr'.nodes.trans hr.nodes
  foreign x hx :=
    have hf := hr.foreign x hx
    have hf' := hr'.foreign x fun hm => hx (hr.nodes hm)
    ⟨hf'.1.trans hf.1,hf'.2.trans hf.2⟩

namespace Holds
variable {h : Heap ν κ} {head : ι → ν} {A : Sequences ν ι} {i j : ι} {x : ν} {l : List ν}

theorem refl (hh : Holds h head A) : Refined h head A h A :=
  ⟨hh,rfl,subset_rfl,fun _ _ => ⟨rfl,rfl⟩⟩

variable [DecidableEq ν] [DecidableEq ι]

theorem put (hh : Holds h head A) (hx : x∈A.free) {a : ν} (ha : a∈head i::A.lists i)
    (hl : RingOf (rlSplice h a x).next (head i) l) (hsub : ∀ y∈l, y = x ∨ y∈A.lists i) :
    Refined h head A (rlSplice h a x) ⟨Function.update A.lists i l,A.free\{x}⟩ := by
  have hmem : ∀ k, ∀ y∈Function.update A.lists i l k, (∃ j, y∈A.lists j) ∨ y∈A.free := by
    intro k y hy
    cases Lists.update_mem.mp hy with
    | inl hy => exact (hsub y hy.2).elim (fun he => .inr (he ▸ hx)) fun hm => .inl ⟨i,hm⟩
    | inr hy => exact .inl ⟨k,hy.2⟩
  refine ⟨hh.change (hh.linked.rlSplice a x) (fun k => ?_) hmem fun y hy => ?_,rfl,?_,
    fun y hy => splice_outside (fun _ => hh.next_nodes) (mem_nodes ha) (.inr hx) hy⟩
  · by_cases hk : k = i
    · subst hk
      simpa using hl
    · simpa [hk] using hh.splice_ring (.inl ha) (.inr hx) hk
  · obtain ⟨hy,hyx⟩ := hy
    have hya : y≠a := fun he => hh.free_not_mem hy i (he ▸ ha)
    refine ⟨?_,(hh.single y hy).2⟩
    rw [rlSplice_next, splice_other _ hya hyx]
    exact (hh.single y hy).1
  · exact nodes_subset hmem fun y hy => .inr hy.1

theorem take (hh : Holds h head A) {a b : ν} (ha : a∈head i::A.lists i)
    (hb : b∈head i::A.lists i) (hx : x∈A.lists i)
    (hl : RingOf (rlSplice h a b).next (head i) l) (hxx : (rlSplice h a b).next x = x)
    (hsub : ∀ y∈l, y∈A.lists i) :
    Refined h head A (rlSplice h a b) ⟨Function.update A.lists i l,insert x A.free⟩ := by
  have hmem : ∀ k, ∀ y∈Function.update A.lists i l k, (∃ j, y∈A.lists j) ∨ y∈A.free := by
    intro k y hy
    cases Lists.update_mem.mp hy with
    | inl hy => exact .inl ⟨i,hsub y hy.2⟩
    | inr hy => exact .inl ⟨k,hy.2⟩
  have hxh : ∀ k, x≠head k := by
    rintro k rfl
    by_cases hk : i = k
    · subst hk
      exact (List.nodup_cons.mp (hh.ring i).nodup).1 hx
    · exact hh.apart i k hk (List.mem_cons_of_mem _ hx)
  refine ⟨hh.change (hh.linked.rlSplice a b) (fun k => ?_) hmem fun y hy => ?_,rfl,?_,
    fun y hy => splice_outside (fun _ => hh.next_nodes) (mem_nodes ha) (mem_nodes hb) hy⟩
  · by_cases hk : k = i
    · subst hk
      simpa using hl
    · simpa [hk] using hh.splice_ring (.inl ha) (.inl hb) hk
  · cases Set.mem_insert_iff.mp hy with
    | inl he => exact he ▸ ⟨hxx,hxh⟩
    | inr hy =>
      have hya : y≠a := fun he => hh.free_not_mem hy i (he ▸ ha)
      have hyb : y≠b := fun he => hh.free_not_mem hy i (he ▸ hb)
      refine ⟨?_,(hh.single y hy).2⟩
      rw [rlSplice_next, splice_other _ hya hyb]
      exact (hh.single y hy).1
  · refine nodes_subset hmem fun y hy => ?_
    cases Set.mem_insert_iff.mp hy with
    | inl he => exact .inl ⟨i,he ▸ List.mem_cons_of_mem _ hx⟩
    | inr hy => exact .inr hy

theorem move (hh : Holds h head A) (hij : i≠j) {a b c d : ν} {l : List ν}
    (ha : a∈head i::A.lists i ∨ a∈head j::A.lists j)
    (hb : b∈head i::A.lists i ∨ b∈head j::A.lists j)
    (hc : c∈head i::A.lists i ∨ c∈head j::A.lists j)
    (hd : d∈head i::A.lists i ∨ d∈head j::A.lists j)
    (hl : RingOf (rlSplice (rlSplice h a b) c d).next (head i) l)
    (hj : RingOf (rlSplice (rlSplice h a b) c d).next (head j) [])
    (hsub : ∀ y∈l, y∈A.lists i ∨ y∈A.lists j) :
    Refined h head A (rlSplice (rlSplice h a b) c d)
      ⟨Function.update (Function.update A.lists i l) j [],A.free⟩ := by
  have hmem : ∀ k, ∀ y∈Function.update (Function.update A.lists i l) j [] k,
      (∃ j, y∈A.lists j) ∨ y∈A.free := by
    intro k y hy
    cases Lists.update_mem.mp hy with
    | inl hy => cases hy.2
    | inr hy =>
      cases Lists.update_mem.mp hy.2 with
      | inl hy => exact (hsub y hy.2).elim (fun hm => .inl ⟨i,hm⟩) fun hm => .inl ⟨j,hm⟩
      | inr hy => exact .inl ⟨k,hy.2⟩
  have hnodes : ∀ y, y∈head i::A.lists i ∨ y∈head j::A.lists j → y∈A.nodes head :=
    fun y hy => hy.elim mem_nodes mem_nodes
  have hclosed : ∀ y∈A.nodes head, (rlSplice h a b).next y∈A.nodes head :=
    fun y hy => splice_closed (fun _ => hh.next_nodes) (hnodes a ha) (hnodes b hb) hy
  have hout : ∀ y, y∉head i::A.lists i → y∉head j::A.lists j →
      (rlSplice (rlSplice h a b) c d).next y = h.next y := by
    intro y hyi hyj
    have hne : ∀ z, z∈head i::A.lists i ∨ z∈head j::A.lists j → y≠z := by
      rintro z hz rfl
      exact hz.elim hyi hyj
    rw [rlSplice_next, splice_other _ (hne c hc) (hne d hd), rlSplice_next,
      splice_other _ (hne a ha) (hne b hb)]
  refine ⟨hh.change ((hh.linked.rlSplice a b).rlSplice c d) (fun k => ?_) hmem fun y hy => ?_,
    rfl,nodes_subset hmem fun y hy => .inr hy,fun y hy => ?_⟩
  · by_cases hkj : k = j
    · subst hkj
      simpa using hj
    · by_cases hki : k = i
      · subst hki
        simpa [hkj] using hl
      · have hk : RingOf (rlSplice (rlSplice h a b) c d).next (head k) (A.lists k) := by
          refine ⟨(hh.ring k).nodup,(path_congr fun y hy => hout y ?_ ?_).mpr (hh.ring k).path⟩
          · exact hh.not_mem_other hy (Ne.symm hki)
          · exact hh.not_mem_other hy (Ne.symm hkj)
        simpa [hkj, hki] using hk
  · rw [hout y (hh.free_not_mem hy i) (hh.free_not_mem hy j)]
    exact hh.single y hy
  · have h1 := splice_outside (fun _ => hh.next_nodes) (hnodes a ha) (hnodes b hb) hy
    have h2 := splice_outside hclosed (hnodes c hc) (hnodes d hd) hy
    exact ⟨h2.1.trans h1.1,h2.2.trans h1.2⟩

theorem moveOut (hh : Holds h head A) (hij : i≠j) {a b : ν} {u v : List ν}
    (ha : a∈head i::A.lists i ∨ a∈head j::A.lists j)
    (hb : b∈head i::A.lists i ∨ b∈head j::A.lists j)
    (hl : RingOf (rlSplice h a b).next (head i) (u++head j::v))
    (hu : ∀ y∈u, y∈A.lists i ∨ y∈A.lists j) (hv : ∀ y∈v, y∈A.lists i ∨ y∈A.lists j) :
    Refined h head A (rlistRemove (rlSplice h a b) (head j))
      ⟨Function.update (Function.update A.lists i (u++v)) j [],A.free⟩ := by
  have hq : head i::u = (head i::u).dropLast++[(head i::u).getLast (by simp)] :=
    (List.dropLast_append_getLast _).symm
  set q := (head i::u).getLast (by simp)
  have hqm : q∈head i::A.lists i ∨ q∈head j::A.lists j := by
    have hm : q∈head i::u := List.getLast_mem _
    cases List.mem_cons.mp hm with
    | inl he => exact .inl (he ▸ List.mem_cons_self)
    | inr hm => exact (hu q hm).imp (List.mem_cons_of_mem _) (List.mem_cons_of_mem _)
  have hp : (rlSplice h a b).prev (head j) = q :=
    (hh.linked.rlSplice a b).prev_eq (hl.pred hq)
  have hr := hl.remove hq
  rw [← rlSplice_next] at hr
  rw [rlistRemove, hp]
  refine hh.move hij ha hb (.inr List.mem_cons_self) hqm hr.1 hr.2 fun y hy => ?_
  exact (List.mem_append.mp hy).elim (hu y) (hv y)

omit [DecidableEq ν] [DecidableEq ι] in
theorem next_head (hh : Holds h head A) {xs : List ν} (hi : A.lists i = x::xs) :
    h.next (head i) = x := by
  have hp := (hh.ring i).path
  rw [hi] at hp
  exact hp.1

omit [DecidableEq ν] [DecidableEq ι] in
theorem prev_head (hh : Holds h head A) (us : List ν) {p : ν}
    (hp : head i::A.lists i = us++[p]) : h.prev (head i) = p :=
  hh.linked.prev_eq ((hh.ring i).last hp)

omit [DecidableEq ν] [DecidableEq ι] in
theorem next_nil (hh : Holds h head A) (hi : A.lists i = []) : h.next (head i) = head i := by
  have hr := hh.ring i
  rw [hi] at hr
  exact RingOf.single_iff.mp hr

/-! One lemma for each operation. -/

theorem pushFront (hh : Holds h head A) (hx : x∈A.free) :
    Refined h head A (rlistPushFront h (head i) x) (Op.apply head A (.pushFront i x)).1 := by
  refine hh.put hx List.mem_cons_self ?_ fun y hy => List.mem_cons.mp hy
  rw [rlSplice_next]
  exact (hh.ring i).join (RingOf.single_iff.mpr (hh.single x hx).1) (hh.free_not_mem hx i)

theorem pushBack (hh : Holds h head A) (hx : x∈A.free) :
    Refined h head A (rlistPushBack h (head i) x) (Op.apply head A (.pushBack i x)).1 := by
  have hp : head i::A.lists i =
      (head i::A.lists i).dropLast++[(head i::A.lists i).getLast (by simp)] :=
    (List.dropLast_append_getLast _).symm
  rw [rlistPushBack, hh.prev_head _ hp]
  refine hh.put hx (List.getLast_mem _) ?_ fun y hy => ?_
  · rw [rlSplice_next]
    exact (hh.ring i).append (RingOf.single_iff.mpr (hh.single x hx).1) (hh.free_not_mem hx i) hp
  · exact (List.mem_append.mp hy).symm.imp List.mem_singleton.mp id

theorem popFirst (hh : Holds h head A) {xs : List ν} (hi : A.lists i = x::xs) :
    Refined h head A (rlSplice h (head i) x)
      ⟨Function.update A.lists i xs,insert x A.free⟩ := by
  have hr := hh.ring i
  rw [hi] at hr
  have hs := hr.split (x := [])
  rw [← rlSplice_next] at hs
  have hx : x∈A.lists i := hi ▸ List.mem_cons_self
  refine hh.take List.mem_cons_self (List.mem_cons_of_mem _ hx) hx hs.1
    (RingOf.single_iff.mp hs.2) fun y hy => ?_
  rw [hi]
  exact List.mem_cons_of_mem x hy

theorem popFront (hh : Holds h head A) :
    Refined h head A (rlistPopFront h (head i)).1 (Op.apply head A (.popFront i)).1 ∧
      some (rlistPopFront h (head i)).2 = (Op.apply head A (.popFront i)).2 := by
  cases hi : A.lists i with
  | nil =>
    simp only [rlistPopFront, Op.apply, hi, hh.next_nil hi, rlSplice_self, and_true]
    exact hh.refl
  | cons x xs =>
    simp only [rlistPopFront, Op.apply, hi, hh.next_head hi, and_true]
    exact hh.popFirst hi

theorem popBack (hh : Holds h head A) (hi : (A.lists i).length < 2) :
    Refined h head A (rlistPopBack h (head i)).1 (Op.apply head A (.popBack i)).1 ∧
      some (rlistPopBack h (head i)).2 = (Op.apply head A (.popBack i)).2 := by
  cases hl : A.lists i with
  | nil =>
    have hp : h.prev (head i) = head i := hh.linked.prev_eq (hh.next_nil hl)
    simp only [rlistPopBack, Op.apply, hl, hp, rlSplice_self, List.getLast?_nil, and_true]
    exact hh.refl
  | cons x xs =>
    rw [hl] at hi
    have hxs : xs = [] := by
      apply List.eq_nil_of_length_eq_zero
      rw [List.length_cons] at hi
      omega
    subst hxs
    have hp : h.prev (head i) = x := hh.prev_head [head i] (by rw [hl]; rfl)
    simp only [rlistPopBack, Op.apply, hl, hp, List.getLast?_singleton, List.dropLast_singleton,
      and_true]
    exact hh.popFirst hl

omit [DecidableEq ι] in
/-- Of a longer list all nodes are cut off, and the sentinel is left alone. -/
theorem popBack_all (hh : Holds h head A) (hi : A.lists i = l++[x]) :
    RingOf (rlistPopBack h (head i)).1.next (head i) [] ∧
      RingOf (rlistPopBack h (head i)).1.next x l := by
  have hp : h.prev (head i) = x := hh.prev_head (head i::l) (by rw [hi]; rfl)
  have hr := hh.ring i
  rw [hi] at hr
  simp only [rlistPopBack, hp, rlSplice_next]
  exact hr.split

theorem removeAt (hh : Holds h head A) {us vs : List ν} (hi : A.lists i = us++x::vs) :
    Refined h head A (rlistRemove h x)
      ⟨Function.update A.lists i (us++vs),insert x A.free⟩ := by
  have hr := hh.ring i
  rw [hi] at hr
  have hx : x∈A.lists i := hi ▸ List.mem_append_right us List.mem_cons_self
  have hq : head i::us = (head i::us).dropLast++[(head i::us).getLast (by simp)] :=
    (List.dropLast_append_getLast _).symm
  have hqm : (head i::us).getLast (by simp)∈head i::A.lists i := by
    rw [hi, ← List.cons_append]
    exact List.mem_append_left _ (List.getLast_mem _)
  have hp : h.prev x = (head i::us).getLast (by simp) := hh.linked.prev_eq (hr.pred hq)
  have hs := hr.remove hq
  rw [← rlSplice_next] at hs
  rw [rlistRemove, hp]
  refine hh.take (List.mem_cons_of_mem _ hx) hqm hx hs.1 (RingOf.single_iff.mp hs.2)
    fun y hy => ?_
  rw [hi]
  exact (List.mem_append.mp hy).elim (List.mem_append_left _) fun hm =>
    List.mem_append_right _ (List.mem_cons_of_mem x hm)

theorem remove (hh : Holds h head A) (hx : x∈A.free ∨ ∃ i, x∈A.lists i) :
    Refined h head A (rlistRemove h x) (Op.apply head A (.remove x)).1 := by
  cases hx with
  | inl hx =>
    have hp : h.prev x = x := hh.linked.prev_eq (hh.single x hx).1
    have hl : (fun i => (A.lists i).erase x) = A.lists := by
      funext i
      exact List.erase_of_not_mem fun hm => hh.free_not_mem hx i (List.mem_cons_of_mem _ hm)
    simp only [rlistRemove, hp, rlSplice_self, Op.apply, hl, Set.insert_eq_of_mem hx]
    exact hh.refl
  | inr hx =>
    obtain ⟨i,hx⟩ := hx
    obtain ⟨us,vs,hi⟩ := List.mem_iff_append.mp hx
    have hxu : x∉us := by
      have hn := (List.nodup_cons.mp (hh.ring i).nodup).2
      rw [hi, List.nodup_middle, List.nodup_cons] at hn
      exact fun hm => hn.1 (List.mem_append_left vs hm)
    have hl : (fun k => (A.lists k).erase x) = Function.update A.lists i (us++vs) := by
      funext k
      by_cases hk : k = i
      · subst hk
        rw [Function.update_self, hi, List.erase_append_right _ hxu, List.erase_cons_head]
      · rw [Function.update_of_ne hk]
        exact List.erase_of_not_mem fun hm =>
          hh.not_mem_other (List.mem_cons_of_mem _ hx) hk (List.mem_cons_of_mem _ hm)
    simp only [Op.apply, hl]
    exact hh.removeAt hi

theorem append (hh : Holds h head A) (hij : i≠j) :
    Refined h head A (rlistAppend h (head i) (head j)) (Op.apply head A (.append i j)).1 := by
  have hp : head i::A.lists i =
      (head i::A.lists i).dropLast++[(head i::A.lists i).getLast (by simp)] :=
    (List.dropLast_append_getLast _).symm
  have hl := (hh.ring i).append (hh.ring j) (hh.apart i j hij) hp
  rw [← List.append_assoc, ← rlSplice_next] at hl
  have hmove := hh.moveOut hij (.inl (List.getLast_mem (by simp))) (.inr List.mem_cons_self) hl
    (fun y hy => List.mem_append.mp hy) nofun
  rw [List.append_nil] at hmove
  rw [rlistAppend, rlistPushBack, hh.prev_head _ hp]
  exact hmove

theorem prepend (hh : Holds h head A) (hij : i≠j) :
    Refined h head A (rlistPrepend h (head i) (head j)) (Op.apply head A (.prepend i j)).1 := by
  have hl := (hh.ring i).join (hh.ring j) (hh.apart i j hij)
  rw [← rlSplice_next] at hl
  exact hh.moveOut hij (.inl List.mem_cons_self) (.inr List.mem_cons_self) hl
    (fun y hy => .inr hy) fun y hy => .inl hy

theorem step (hh : Holds h head A) (o : Op ν ι) (ho : o.Allowed A)
    (hback : ∀ i, o = .popBack i → (A.lists i).length < 2) :
    Refined h head A (o.exec head h).1 (o.apply head A).1 ∧
      (o.exec head h).2 = (o.apply head A).2 := by
  cases o with
  | pushFront i x => exact ⟨hh.pushFront ho,rfl⟩
  | pushBack i x => exact ⟨hh.pushBack ho,rfl⟩
  | popFront i => exact hh.popFront
  | popBack i => exact hh.popBack (hback i rfl)
  | remove x => exact ⟨hh.remove ho,rfl⟩
  | append i j => exact ⟨hh.append ho,rfl⟩
  | prepend i j => exact ⟨hh.prepend ho,rfl⟩

end Holds

section
variable [DecidableEq ν] [DecidableEq ι] {h : Heap ν κ} {head : ι → ν} {A : Sequences ν ι}

omit [DecidableEq ι] in
def Op.heap (head : ι → ν) (h : Heap ν κ) (ops : List (Op ν ι)) : Heap ν κ :=
  ops.foldl (fun h o => (o.exec head h).1) h

def Op.sequences (head : ι → ν) (A : Sequences ν ι) (ops : List (Op ν ι)) : Sequences ν ι :=
  ops.foldl (fun A o => (o.apply head A).1) A

omit [DecidableEq ι] in
def Op.returned (head : ι → ν) (h : Heap ν κ) : List (Op ν ι) → List (Option ν)
  | [] => []
  | o::ops => (o.exec head h).2::Op.returned head (o.exec head h).1 ops

def Op.answers (head : ι → ν) (A : Sequences ν ι) : List (Op ν ι) → List (Option ν)
  | [] => []
  | o::ops => (o.apply head A).2::Op.answers head (o.apply head A).1 ops

def Op.AllAllowed (head : ι → ν) (A : Sequences ν ι) : List (Op ν ι) → Prop
  | [] => True
  | o::ops => o.Allowed A ∧ Op.AllAllowed head (o.apply head A).1 ops

def Op.BackShort (head : ι → ν) (A : Sequences ν ι) (ops : List (Op ν ι)) : Prop :=
  ∀ pre i, pre++[.popBack i] <+: ops → ((Op.sequences head A pre).lists i).length < 2

theorem Op.BackShort.tail {o : Op ν ι} {ops : List (Op ν ι)}
    (hb : Op.BackShort head A (o::ops)) : Op.BackShort head (o.apply head A).1 ops := by
  intro pre i hp
  exact hb (o::pre) i (List.cons_prefix_cons.mpr ⟨rfl,hp⟩)

theorem Op.BackShort.first {o : Op ν ι} {ops : List (Op ν ι)}
    (hb : Op.BackShort head A (o::ops)) (i : ι) (ho : o = .popBack i) :
    (A.lists i).length < 2 :=
  hb [] i (by simp [ho])

namespace Holds

theorem run (hh : Holds h head A) {ops : List (Op ν ι)} (ho : Op.AllAllowed head A ops)
    (hb : Op.BackShort head A ops) {pre : List (Op ν ι)} (hp : pre <+: ops) :
    Refined h head A (Op.heap head h pre) (Op.sequences head A pre) ∧
      Op.returned head h pre = Op.answers head A pre := by
  induction pre generalizing h A ops with
  | nil => exact ⟨hh.refl,rfl⟩
  | cons o pre ih =>
    cases ops with
    | nil => cases List.prefix_nil.mp hp
    | cons o' ops =>
      obtain ⟨rfl,hpre⟩ := List.cons_prefix_cons.mp hp
      have hs := hh.step o ho.1 hb.first
      have hr := ih hs.1.holds ho.2 hb.tail hpre
      refine ⟨hs.1.trans hr.1,?_⟩
      simp only [Op.returned, Op.answers, hs.2, hr.2]

theorem popBack_short (hh : Holds h head A) (i : ι)
    (hp : Holds (rlistPopBack h (head i)).1 head (Op.apply head A (.popBack i)).1) :
    (A.lists i).length < 2 := by
  cases List.eq_nil_or_concat (A.lists i) with
  | inl hi => simp [hi]
  | inr hi =>
    obtain ⟨l,x,hi⟩ := hi
    rw [List.concat_eq_append] at hi
    have hr := hp.ring i
    simp only [Op.apply, hi, List.getLast?_concat, List.dropLast_concat,
      Function.update_self] at hr
    have hl : l = [] := hr.unique (hh.popBack_all hi).1
    simp [hi, hl]

end Holds

/-- The list functions are those of sequences, in every run and at every place of it, unless
a list of two or more nodes is popped at the back. -/
theorem lists_refine_iff {ν κ ι : Type*} [DecidableEq ν] [DecidableEq ι] [DecidableEq κ]
    {h : Heap ν κ} {head : ι → ν} {A : Sequences ν ι} (hh : Holds h head A) :
    (∀ ops, Op.AllAllowed head A ops →
      ((∀ pre, pre <+: ops →
          Refined h head A (Op.heap head h pre) (Op.sequences head A pre) ∧
            Op.returned head h pre = Op.answers head A pre) ↔
        Op.BackShort head A ops)) ∧
    (∀ i, A.lists i = [] →
      rlistPopFront h (head i) = (h,head i) ∧ rlistPopBack h (head i) = (h,head i)) ∧
    (∀ i fuel, (A.lists i).length < fuel → (A.lists i).length < 2^32 →
      rlistLen h (head i) fuel = some (A.lists i).length) ∧
    (∀ i j fuel, (A.lists i).length < fuel →
      rlistEqual h (head i) (head j) fuel =
        some (decide ((A.lists i).map h.key = (A.lists j).map h.key))) ∧
    ∀ i key fail fuel, (A.lists i).length < fuel →
      rlistFind h (head i) key fail fuel =
        some (((A.lists i).find? fun x => h.key x = key).getD fail) := by
  have hpath : ∀ i, h.next (head i) = (A.lists i++[head i]).head (by simp) ∧
      Path h.next (A.lists i) (head i) ∧ head i∉A.lists i := by
    intro i
    have hp := (path_cons _ _ _ _).mp (hh.ring i).path
    exact ⟨hp.1,hp.2,(List.nodup_cons.mp (hh.ring i).nodup).1⟩
  refine ⟨fun ops ho => ⟨fun hc pre i hp => ?_,fun hb pre hp => hh.run ho hb hp⟩,
    fun i hi => ⟨?_,?_⟩,fun i fuel hf hlen => ?_,fun i j fuel hf => ?_,
    fun i key fail fuel hf => ?_⟩
  · have hpre := (hc pre ((List.prefix_append _ _).trans hp)).1.holds
    have hpop := (hc _ hp).1.holds
    rw [Op.heap, Op.sequences, List.foldl_append, List.foldl_append] at hpop
    exact hpre.popBack_short i hpop
  · simp [rlistPopFront, hh.next_nil hi]
  · simp [rlistPopBack, hh.linked.prev_eq (hh.next_nil hi)]
  · obtain ⟨hn,hp,hi⟩ := hpath i
    rw [rlistLen, hn, lenLoop_eq hp hi fuel hf, UInt32.zero_add, Option.map_some,
      UInt32.toNat_ofNat', Nat.mod_eq_of_lt hlen]
  · obtain ⟨hn,hp,hi⟩ := hpath i
    obtain ⟨hn',hp',hj⟩ := hpath j
    rw [rlistEqual, hn, hn', equalLoop_eq hp hp' hi hj fuel hf]
  · obtain ⟨hn,hp,hi⟩ := hpath i
    rw [rlistFind, hn, findLoop_eq hp hi key fail fuel hf]

end

def twoNodes : Sequences (Fin 3) Unit := ⟨fun _ => [1,2],∅⟩

theorem holds_twoNodes : Holds threeNodes (fun _ => 0) twoNodes where
  linked := ⟨by decide,by decide⟩
  ring _ := ⟨by simp [twoNodes],by simp [twoNodes, Ring.Path, threeNodes]⟩
  apart i j hij := absurd (Subsingleton.elim i j) hij
  single := nofun

theorem lists_refine_popFront :
    Refined threeNodes (fun _ => 0) twoNodes
      (Op.heap (fun _ => 0) threeNodes [.popFront ()])
      (Op.sequences (fun _ => 0) twoNodes [.popFront ()]) := by
  have hf := ((lists_refine_iff holds_twoNodes).1 [.popFront ()] ⟨trivial,trivial⟩).mpr
    fun pre i hp => ?_
  · exact (hf _ (List.prefix_refl _)).1
  · have hm : Op.popBack i∈[Op.popFront ()] := hp.subset (by simp)
    simp at hm

/-- The node 1 is lost with the node 2. -/
theorem popBack_twoNodes :
    Holds threeNodes (fun _ => 0) twoNodes ∧
    (Op.apply (fun _ => 0) twoNodes (.popBack ())).1.lists () = [1] ∧
    RingOf (rlistPopBack threeNodes 0).1.next 0 [] ∧
    ¬Refined threeNodes (fun _ => 0) twoNodes (rlistPopBack threeNodes 0).1
      (Op.apply (fun _ => 0) twoNodes (.popBack ())).1 := by
  refine ⟨holds_twoNodes,rfl,(holds_twoNodes.popBack_all (i := ()) (l := [1]) rfl).1,?_⟩
  intro hr
  have hlen := holds_twoNodes.popBack_short () hr.holds
  simp [twoNodes] at hlen

end TinyOS.RList
