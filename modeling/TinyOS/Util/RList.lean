import Mathlib.Algebra.Ring.Nat
import TinyOS.Lib.Ring

/-! The resource lists of util.h: circular doubly linked rings of rlnodes, all
built on splicing. The operations are read as list operations wherever the rings
of memory are lists behind sentinels and singletons. -/
namespace TinyOS.RList
open Ring
variable {ν κ ι : Type*}

/-- The rlnodes of memory, each with its key and its two links. -/
@[ext] structure Heap (ν κ : Type*) where
  key : ν → κ
  prev : ν → ν
  next : ν → ν

/-- Links are mutually inverse: p->next->prev == p->prev->next == p. -/
structure Linked (h : Heap ν κ) : Prop where
  prevNext : ∀ x, h.prev (h.next x) = x
  nextPrev : ∀ x, h.next (h.prev x) = x

/-- Memory holds the lists ls behind the sentinels head; every other node is a
singleton ring. -/
structure Represents (h : Heap ν κ) (head : ι → ν) (ls : ι → List ν) : Prop where
  linked : Linked h
  lists : Lists h.next head ls

theorem Linked.next_injective {h : Heap ν κ} (hl : Linked h) : Function.Injective h.next :=
  Function.LeftInverse.injective hl.prevNext

theorem Linked.prev_eq {h : Heap ν κ} (hl : Linked h) {x y : ν} (hy : h.next y = x) :
    h.prev x = y := by
  rw [← hy, hl.prevNext]

namespace Represents
variable {h : Heap ν κ} {head : ι → ν} {ls : ι → List ν} {i j : ι} {x : ν} {us vs xs : List ν}

theorem prev_head (hr : Represents h head ls) (i : ι) :
    h.prev (head i) = (head i::ls i).getLast (by simp) :=
  hr.linked.prev_eq (path_getLast (hr.lists.path i) _)

theorem prev_mem (hr : Represents h head ls) (hi : ls i = us++x::vs) :
    h.prev x = (head i::us).getLast (by simp) := by
  have hp := hr.lists.path i
  rw [hi, ← List.cons_append, path_append] at hp
  exact hr.linked.prev_eq (path_getLast hp.1 _)

theorem prev_single (hr : Represents h head ls) (hxh : ∀ i, x≠head i) (hxl : ∀ i, x∉ls i) :
    h.prev x = x :=
  hr.linked.prev_eq (hr.lists.single x hxh hxl)

theorem next_mem_ne (hr : Represents h head ls) (hx : x∈ls i) : h.next x≠x := by
  obtain ⟨us,vs,hi⟩ := List.mem_iff_append.mp hx
  have hp := hr.lists.path i
  have hn := hr.lists.cons_nodup i
  rw [hi, ← List.cons_append] at hp hn
  have h2 := ((path_append _ _ _ _ _).mp hp).2
  cases vs with
  | nil =>
    have hne : head i≠x := fun he => hr.lists.headNotMem i i (he ▸ hx)
    intro he
    exact hne (h2.symm.trans he)
  | cons y ys =>
    have hxy : x≠y := by
      have := (List.nodup_append.mp hn).2.1
      simp only [List.nodup_cons, List.mem_cons, not_or] at this
      exact this.1.1
    intro he
    exact hxy (he.symm.trans h2.1)

theorem next_head (hr : Represents h head ls) (hi : ls i = x::xs) : h.next (head i) = x := by
  have hp := hr.lists.path i
  rw [hi] at hp
  exact hp.1

theorem next_mem (hr : Represents h head ls) (us vs : List ν) (hi : ls i = us++x::vs) :
    h.next x = (vs++[head i]).head (by simp) := by
  have hp := hr.lists.path i
  rw [hi, ← List.cons_append, path_append] at hp
  cases vs with
  | nil => exact hp.2
  | cons y ys => exact hp.2.1

end Represents

variable [DecidableEq ν]

def isRlistEmpty (h : Heap ν κ) (a : ν) : Bool := decide (a = h.next a)

def rlnodeNew (h : Heap ν κ) (p : ν) : Heap ν κ :=
  { h with prev := Function.update h.prev p p, next := Function.update h.next p p }

def rlnodeInit (h : Heap ν κ) (p : ν) (ptr : κ) : Heap ν κ :=
  { rlnodeNew h p with key := Function.update h.key p ptr }

def rlnodeSwap (m : ν → ν) (p q : ν) : ν → ν :=
  Function.update (Function.update m p (m q)) q (m p)

/-- The prev cells are addressed through the next links before these change. -/
def rlSplice (h : Heap ν κ) (a b : ν) : Heap ν κ :=
  { h with
    prev := rlnodeSwap h.prev (h.next a) (h.next b)
    next := rlnodeSwap h.next a b }

def rlistRemove (h : Heap ν κ) (a : ν) : Heap ν κ := rlSplice h a (h.prev a)

def rlistPushFront (h : Heap ν κ) (list node : ν) : Heap ν κ := rlSplice h list node

def rlistPushBack (h : Heap ν κ) (list node : ν) : Heap ν κ := rlSplice h (h.prev list) node

def rlistPopFront (h : Heap ν κ) (list : ν) : Heap ν κ × ν :=
  (rlSplice h list (h.next list),h.next list)

def rlistAppend (h : Heap ν κ) (ldest lsrc : ν) : Heap ν κ :=
  rlistRemove (rlistPushBack h ldest lsrc) lsrc

theorem rlnodeSwap_eq (m : ν → ν) (p q : ν) : rlnodeSwap m p q = splice m p q := by
  rw [rlnodeSwap, splice_comm, splice, Equiv.comp_swap_eq_update]

@[simp] theorem rlSplice_next (h : Heap ν κ) (a b : ν) :
    (rlSplice h a b).next = splice h.next a b := rlnodeSwap_eq _ _ _

@[simp] theorem rlSplice_key (h : Heap ν κ) (a b : ν) : (rlSplice h a b).key = h.key := rfl

theorem rlSplice_comm (h : Heap ν κ) (a b : ν) : rlSplice h a b = rlSplice h b a := by
  simp only [rlSplice, rlnodeSwap_eq, splice_comm h.next a b,
    splice_comm h.prev (h.next a) (h.next b)]

@[simp] theorem rlSplice_self (h : Heap ν κ) (a : ν) : rlSplice h a a = h := by
  simp [rlSplice, rlnodeSwap_eq]

theorem Linked.rlSplice {h : Heap ν κ} (hl : Linked h) (a b : ν) : Linked (rlSplice h a b) := by
  have hswap : ∀ x, Equiv.swap (h.next a) (h.next b) (h.next x) = h.next (Equiv.swap a b x) :=
    fun x => (hl.next_injective.swap_apply a b x)
  have hswap' : ∀ x, h.next (Equiv.swap a b x) = Equiv.swap (h.next a) (h.next b) (h.next x) :=
    fun x => (hswap x).symm
  constructor
  · intro x
    simp [RList.rlSplice, rlnodeSwap_eq, splice, hswap', hl.prevNext]
  · intro x
    simp [RList.rlSplice, rlnodeSwap_eq, splice, hswap', hl.nextPrev]

theorem rlSplice_rlSplice (h : Heap ν κ) (a b : ν) : rlSplice (rlSplice h a b) a b = h := by
  simp only [rlSplice, rlnodeSwap_eq, splice_left, splice_right]
  rw [splice_comm (splice h.prev (h.next a) (h.next b)), splice_splice, splice_splice]

theorem rlSplice_other {h : Heap ν κ} (hl : Linked h) {a b c : ν} {z : List ν}
    (hc : RingOf h.next c z) (ha : a∉c::z) (hb : b∉c::z) :
    RingOf (rlSplice h a b).next c z ∧
      ∀ x∈c::z, (rlSplice h a b).next x = h.next x ∧ (rlSplice h a b).prev x = h.prev x := by
  have hr : RingOf (rlSplice h a b).next c z := by
    rw [rlSplice_next]
    exact hc.other ha hb
  have hnext : ∀ x∈c::z, (rlSplice h a b).next x = h.next x := by
    intro x hx
    rw [rlSplice_next]
    exact splice_other _ (fun he => ha (he ▸ hx)) fun he => hb (he ▸ hx)
  refine ⟨hr,fun x hx => ⟨hnext x hx,?_⟩⟩
  obtain ⟨y,hy,hyx⟩ := hc.exists_prev hx
  rw [hl.prev_eq hyx]
  exact (hl.rlSplice a b).prev_eq ((hnext y hy).trans hyx)

/-- The splicing law: rings with a and b in them are joined or split, in every case of
aliasing, and all else stays as it is. -/
theorem splice_law {h : Heap ν κ} (hl : Linked h) (a b : ν) :
    Linked (rlSplice h a b) ∧ (rlSplice h a b).key = h.key ∧
    (∀ x y, RingOf h.next a x → RingOf h.next b y → b∉a::x →
      RingOf (rlSplice h a b).next a (y++b::x)) ∧
    (∀ x y, RingOf h.next a (x++b::y) →
      RingOf (rlSplice h a b).next a y ∧ RingOf (rlSplice h a b).next b x) ∧
    (a = b → rlSplice h a b = h) ∧
    (∀ c z, RingOf h.next c z → a∉c::z → b∉c::z → RingOf (rlSplice h a b).next c z ∧
      ∀ x∈c::z, (rlSplice h a b).next x = h.next x ∧ (rlSplice h a b).prev x = h.prev x) ∧
    rlSplice (rlSplice h a b) a b = h := by
  refine ⟨hl.rlSplice a b,rfl,fun x y hx hy hb => ?_,fun x y hxy => ?_,?_,
    fun c z hc ha hb => rlSplice_other hl hc ha hb,rlSplice_rlSplice h a b⟩
  · rw [rlSplice_next]
    exact hx.join hy hb
  · rw [rlSplice_next]
    exact hxy.split
  · rintro rfl
    exact rlSplice_self h a

instance threeNeZero : NeZero 3 := ⟨by decide⟩

def threeNodes : Heap (Fin 3) Unit where
  key _ := ()
  prev x := x-1
  next x := x+1

theorem splice_law_threeNodes : RingOf (rlSplice threeNodes 0 2).next 0 [] ∧
    RingOf (rlSplice threeNodes 0 2).next 2 [1] := by
  have hl : Linked threeNodes := ⟨by decide,by decide⟩
  exact (splice_law hl 0 2).2.2.2.1 [1] [] ⟨by decide,by simp [Ring.Path, threeNodes]⟩

namespace Represents
variable {h : Heap ν κ} {head : ι → ν} {ls : ι → List ν} {i j : ι} {x : ν}
  {xs : List ν}

theorem isRlistEmpty_iff (hr : Represents h head ls) :
    isRlistEmpty h (head i) = true ↔ ls i = [] := by
  have hp := hr.lists.path i
  cases hl : ls i with
  | nil =>
    rw [hl] at hp
    simpa [isRlistEmpty] using hp.symm
  | cons y ys =>
    rw [hl] at hp
    have hy : head i≠y := fun he => hr.lists.headNotMem i i (by simp [hl, ← he])
    simp [isRlistEmpty, hp.1, hy]

theorem rlistRemove_single (hr : Represents h head ls) (hxh : ∀ i, x≠head i)
    (hxl : ∀ i, x∉ls i) : RList.rlistRemove h x = h := by
  rw [RList.rlistRemove, hr.prev_single hxh hxl, rlSplice_self]

theorem rlistPopFront_nil (hr : Represents h head ls) (hi : ls i = []) :
    rlistPopFront h (head i) = (h,head i) := by
  have hp := hr.lists.path i
  rw [hi] at hp
  have hn : h.next (head i) = head i := hp
  simp [rlistPopFront, hn]

theorem rlnodeInit (hr : Represents h head ls) (hxh : ∀ i, x≠head i) (hxl : ∀ i, x∉ls i)
    (k : κ) : rlnodeInit h x k = { h with key := Function.update h.key x k } := by
  have hn : h.next x = x := hr.lists.single x hxh hxl
  have hp : h.prev x = x := hr.prev_single hxh hxl
  simp only [RList.rlnodeInit, rlnodeNew]
  congr 1
  · exact Function.update_eq_self_iff.mpr hp.symm
  · exact Function.update_eq_self_iff.mpr hn.symm

variable [DecidableEq ι]

theorem rlistPushFront (hr : Represents h head ls) (hxh : ∀ j, x≠head j) (hxl : ∀ j, x∉ls j) :
    Represents (rlistPushFront h (head i) x) head (Function.update ls i (x::ls i)) :=
  ⟨hr.linked.rlSplice _ _,by
    simpa [RList.rlistPushFront] using hr.lists.insert [] (ls i) rfl hxh hxl⟩

theorem insertBefore (hr : Represents h head ls) (us vs : List ν) (hi : ls i = us++vs)
    (hxh : ∀ j, x≠head j)
    (hxl : ∀ j, x∉ls j) {n : ν} (hn : n = (vs++[head i]).head (by simp)) :
    Represents (rlSplice h (h.prev n) x) head (Function.update ls i (us++x::vs)) := by
  have hp : h.prev n = (head i::us).getLast (by simp) := by
    cases vs with
    | nil =>
      rw [hn]
      simpa [hi] using hr.prev_head i
    | cons y ys =>
      rw [hn]
      exact hr.prev_mem hi
  rw [hp]
  exact ⟨hr.linked.rlSplice _ _,by simpa using hr.lists.insert us vs hi hxh hxl⟩

theorem rlistPushBack (hr : Represents h head ls) (hxh : ∀ j, x≠head j) (hxl : ∀ j, x∉ls j) :
    Represents (rlistPushBack h (head i) x) head (Function.update ls i (ls i++[x])) :=
  hr.insertBefore (ls i) [] (by simp) hxh hxl (by simp)

theorem rlistRemove (hr : Represents h head ls) (hx : x∈ls i) :
    Represents (rlistRemove h x) head (Function.update ls i ((ls i).erase x)) := by
  obtain ⟨us,vs,hi⟩ := List.mem_iff_append.mp hx
  have hxu : x∉us := by
    have hn := hi ▸ hr.lists.nodup i
    rw [List.nodup_middle, List.nodup_cons] at hn
    exact fun hm => hn.1 (List.mem_append_left vs hm)
  have he : (ls i).erase x = us++vs := by
    rw [hi, List.erase_append_right _ hxu, List.erase_cons_head]
  rw [he, RList.rlistRemove, hr.prev_mem hi]
  exact ⟨hr.linked.rlSplice _ _,by simpa using hr.lists.remove us vs hi⟩

theorem rlistPopFront_cons (hr : Represents h head ls) (hi : ls i = x::xs) :
    (rlistPopFront h (head i)).2 = x ∧
      Represents (rlistPopFront h (head i)).1 head (Function.update ls i xs) := by
  have hx := hr.next_head hi
  refine ⟨hx,?_⟩
  rw [rlistPopFront, hx, rlSplice_comm]
  refine ⟨hr.linked.rlSplice _ _,?_⟩
  simpa using hr.lists.remove [] xs hi

theorem rlistAppend (hr : Represents h head ls) (hij : i≠j) :
    Represents (rlistAppend h (head i) (head j)) head
      (Function.update (Function.update ls i (ls i++ls j)) j []) := by
  have hlink := hr.linked.rlSplice ((head i::ls i).getLast (by simp)) (head j)
  have hlast := hr.lists.append_last hij
  rw [← rlSplice_next] at hlast
  have hq := hlink.prev_eq hlast
  rw [RList.rlistAppend, RList.rlistPushBack, hr.prev_head i, RList.rlistRemove, hq]
  exact ⟨hlink.rlSplice _ _,by simpa using hr.lists.append hij⟩

end Represents
end TinyOS.RList
