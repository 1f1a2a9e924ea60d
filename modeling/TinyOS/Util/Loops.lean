import TinyOS.Lib.Cycle
import TinyOS.Util.Sequences

/-! The loops of util.h that change the links they walk along: rlist_select takes nodes out
of the ring that it is in, and rlist_reverse turns its ring round behind it. -/
namespace TinyOS.RList
open Ring
variable {ν κ ι : Type*} [DecidableEq ν]

/-- while(I->next != Lsrc), with the nodes that pred has been called on -/
def selectLoop (lsrc ldest : ν) (pred : κ → Bool) :
    Nat → Heap ν κ → ν → List ν → Option (Heap ν κ × List ν)
  | 0, _, _, _ => none
  | fuel+1, h, i, seen =>
    if h.next i≠lsrc then
      let p := h.next i
      if pred (h.key p) then
        selectLoop lsrc ldest pred fuel (rlistPushBack (rlistRemove h p) ldest p) i (seen++[p])
      else selectLoop lsrc ldest pred fuel h p (seen++[p])
    else some (h,seen)

def rlistSelect (h : Heap ν κ) (lsrc ldest : ν) (pred : κ → Bool) (fuel : Nat) :
    Option (Heap ν κ × List ν) :=
  selectLoop lsrc ldest pred fuel h lsrc []

namespace Holds
variable [DecidableEq ι] {h : Heap ν κ} {head : ι → ν} {A : Sequences ν ι} {i j : ι} {x : ν}

theorem transfer (hh : Holds h head A) (hij : i≠j) {us vs : List ν}
    (hi : A.lists i = us++x::vs) :
    Refined h head A (rlistPushBack (rlistRemove h x) (head j) x)
      ⟨Function.update (Function.update A.lists i (us++vs)) j (A.lists j++[x]),A.free⟩ := by
  have hx : x∈A.lists i := hi ▸ List.mem_append_right us List.mem_cons_self
  have hfree : x∉A.free := fun hm => hh.free_not_mem hm i (List.mem_cons_of_mem _ hx)
  have hr := hh.removeAt hi
  have hp := hr.holds.pushBack (i := j) (Set.mem_insert x A.free)
  have hset : insert x A.free\{x} = A.free := by
    ext y
    by_cases hy : y = x
    · simp [hy, hfree]
    · simp [hy]
  simp only [Op.apply, Function.update_of_ne hij.symm, hset] at hp
  exact hr.trans hp

theorem selectLoop (hh : Holds h head A) (hij : i≠j) (pred : κ → Bool) (us : List ν)
    {vs w : List ν} {p : ν} (hi : A.lists i = us++vs) (hp : head i::us = w++[p]) :
    ∃ h', (∀ fuel seen, vs.length < fuel →
        selectLoop (head i) (head j) pred fuel h p seen = some (h',seen++vs)) ∧
      Refined h head A h'
        ⟨Function.update (Function.update A.lists i (us++vs.filter fun x => !pred (h.key x)))
          j (A.lists j++vs.filter fun x => pred (h.key x)),A.free⟩ := by
  induction vs generalizing h A us w p with
  | nil =>
    rw [List.append_nil] at hi
    have hn : h.next p = head i := (hh.ring i).last (by rw [hi]; exact hp)
    have hA : Function.update (Function.update A.lists i us) j (A.lists j) = A.lists := by
      rw [← hi, Function.update_eq_self, Function.update_eq_self]
    refine ⟨h,fun fuel seen hf => ?_,?_⟩
    · obtain ⟨fuel,rfl⟩ := Nat.exists_eq_succ_of_ne_zero (Nat.ne_of_gt hf)
      simp [RList.selectLoop, hn]
    · simp only [List.filter_nil, List.append_nil, hA]
      exact hh.refl
  | cons x vs ih =>
    have hr := hh.ring i
    rw [hi] at hr
    have hn : h.next p = x := hr.pred hp
    have hx : x≠head i := by
      rintro rfl
      exact (List.nodup_cons.mp hr.nodup).1 (List.mem_append_right us List.mem_cons_self)
    cases hpred : pred (h.key x) with
    | true =>
      have ht := hh.transfer hij hi
      set h1 := rlistPushBack (rlistRemove h x) (head j) x with hh1
      obtain ⟨h',hrun,href⟩ := ih ht.holds us (by simp [hij]) hp
      refine ⟨h',fun fuel seen hf => ?_,?_⟩
      · obtain ⟨fuel,rfl⟩ :=
          Nat.exists_eq_succ_of_ne_zero (Nat.ne_of_gt (Nat.zero_lt_of_lt hf))
        simp only [RList.selectLoop, hn, hpred, ne_eq, hx, not_false_eq_true, if_true]
        rw [← hh1, hrun fuel _ (by simpa using hf), List.append_assoc, List.singleton_append]
      · have hnext := ht.trans href
        simp only [Function.update_self, ht.key] at hnext
        have hA : Function.update (Function.update (Function.update (Function.update A.lists i
            (us++vs)) j (A.lists j++[x])) i (us++vs.filter fun x => !pred (h.key x))) j
            (A.lists j++[x]++vs.filter fun x => pred (h.key x)) =
            Function.update (Function.update A.lists i
              (us++(x::vs).filter fun x => !pred (h.key x))) j
              (A.lists j++(x::vs).filter fun x => pred (h.key x)) := by
          funext k
          by_cases hkj : k = j
          · subst hkj
            simp [hpred]
          · by_cases hki : k = i
            · subst hki
              simp [hkj, hpred]
            · simp [hkj, hki]
        rw [← hA]
        exact hnext
    | false =>
      have hu : A.lists i = (us++[x])++vs := by simp [hi]
      obtain ⟨h',hrun,href⟩ := ih hh (us++[x]) hu (w := head i::us) rfl
      refine ⟨h',fun fuel seen hf => ?_,?_⟩
      · obtain ⟨fuel,rfl⟩ :=
          Nat.exists_eq_succ_of_ne_zero (Nat.ne_of_gt (Nat.zero_lt_of_lt hf))
        simp only [RList.selectLoop, hn, hpred, ne_eq, hx, not_false_eq_true, if_true,
          Bool.false_eq_true, if_false]
        rw [hrun fuel _ (by simpa using hf), List.append_assoc, List.singleton_append]
      · simpa [hpred] using href

end Holds

omit [DecidableEq ν] in
theorem holds_two {h : Heap ν κ} (hl : Linked h) {a b : ν} {x y : List ν}
    (hx : RingOf h.next a x) (hy : RingOf h.next b y) (hb : b∉a::x) :
    Holds h (fun i => cond i b a) ⟨fun i => cond i y x,∅⟩ where
  linked := hl
  ring i := by cases i with
    | false => exact hx
    | true => exact hy
  apart i j hij := by cases i with
    | false => cases j with
      | false => exact absurd rfl hij
      | true => exact hb
    | true => cases j with
      | false =>
        intro ha
        exact hb (hx.mem_of_common hy List.mem_cons_self ha)
      | true => exact absurd rfl hij
  single := nofun

/-- rlist_select is a stable partition: each node of Lsrc is looked at once. -/
theorem rlistSelect_partition {h : Heap ν κ} (hl : Linked h) {lsrc ldest : ν}
    {xs ys : List ν} (hsrc : RingOf h.next lsrc xs) (hdest : RingOf h.next ldest ys)
    (hne : ldest∉lsrc::xs) (pred : κ → Bool) :
    ∃ h', (∀ fuel, xs.length < fuel → rlistSelect h lsrc ldest pred fuel = some (h',xs)) ∧
      Linked h' ∧ h'.key = h.key ∧
      RingOf h'.next lsrc (xs.filter fun x => !pred (h.key x)) ∧
      RingOf h'.next ldest (ys++xs.filter fun x => pred (h.key x)) ∧
      ((xs.filter fun x => !pred (h.key x))++(ys++xs.filter fun x => pred (h.key x))).Perm
        (xs++ys) ∧ (xs++ys).Nodup ∧
      ∀ x∉lsrc::xs, x∉ldest::ys → h'.next x = h.next x ∧ h'.prev x = h.prev x := by
  have hh := holds_two hl hsrc hdest hne
  obtain ⟨h',hrun,href⟩ := hh.selectLoop (i := false) (j := true) nofun pred []
    (w := []) rfl rfl
  refine ⟨h',fun fuel hf => hrun fuel [] hf,href.holds.linked,href.key,
    href.holds.ring false,href.holds.ring true,?_,?_,fun x hx hy => href.foreign x ?_⟩
  · refine (List.perm_append_comm_assoc _ _ _).trans ?_
    have hp : ((xs.filter fun x => !pred (h.key x))++xs.filter fun x => pred (h.key x)).Perm xs :=
      List.perm_append_comm.trans (List.filter_append_perm _ _)
    exact (hp.append_left ys).trans List.perm_append_comm
  · refine (List.nodup_cons.mp hsrc.nodup).2.append (List.nodup_cons.mp hdest.nodup).2 ?_
    intro x hx hy
    exact hsrc.disjoint hdest hne x (List.mem_cons_of_mem _ hx) (List.mem_cons_of_mem _ hy)
  · rintro (⟨i,hi⟩ | hi)
    · cases i with
      | false => exact hx hi
      | true => exact hy hi
    · exact hi

def fiveNodes : Heap (Fin 5) Nat where
  key x := x.val
  prev x := if x = 4 then 4 else if x = 0 then 3 else x-1
  next x := if x = 4 then 4 else if x = 3 then 0 else x+1

theorem rlistSelect_fiveNodes :
    ∃ h', rlistSelect fiveNodes 0 4 (fun k => k%2 == 1) 4 = some (h',[1,2,3]) ∧
      RingOf h'.next 0 [2] ∧ RingOf h'.next 4 [1,3] := by
  have hl : Linked fiveNodes := ⟨by decide,by decide⟩
  have hsrc : RingOf fiveNodes.next 0 [1,2,3] :=
    ⟨by decide,by simp [Ring.Path, fiveNodes]⟩
  have hdest : RingOf fiveNodes.next 4 [] := ⟨by decide,by simp [Ring.Path, fiveNodes]⟩
  obtain ⟨h',hrun,-,-,hr,hr',-⟩ :=
    rlistSelect_partition hl hsrc hdest (by decide) fun k => k%2 == 1
  exact ⟨h',hrun 4 (by simp),hr,hr'⟩

/-! rlist_reverse -/

/-- rlnode_swap(& p->prev, & p->next) -/
def rlnodeTurn (h : Heap ν κ) (p : ν) : Heap ν κ :=
  { h with
    prev := Function.update h.prev p (h.next p)
    next := Function.update h.next p (h.prev p) }

/-- do ... while(p!=l), with the nodes that p has been -/
def reverseLoop (l : ν) : Nat → Heap ν κ → ν → List ν → Option (Heap ν κ × List ν)
  | 0, _, _, _ => none
  | fuel+1, h, p, seen =>
    let h' := rlnodeTurn h p
    let q := h'.next p
    if q≠l then reverseLoop l fuel h' q (seen++[p]) else some (h',seen++[p])

def rlistReverse (h : Heap ν κ) (l : ν) (fuel : Nat) : Option (Heap ν κ × List ν) :=
  reverseLoop l fuel h l []

def turned (h : Heap ν κ) (s : List ν) : Heap ν κ where
  key := h.key
  prev x := if x∈s then h.next x else h.prev x
  next x := if x∈s then h.prev x else h.next x

theorem turned_concat (h : Heap ν κ) {s : List ν} {p : ν} (hp : p∉s) :
    rlnodeTurn (turned h s) p = turned h (s++[p]) := by
  ext x
  · rfl
  · by_cases hx : x = p
    · subst hx
      simp [rlnodeTurn, turned, hp]
    · simp [rlnodeTurn, turned, hx]
  · by_cases hx : x = p
    · subst hx
      simp [rlnodeTurn, turned, hp]
    · simp [rlnodeTurn, turned, hx]

theorem turned_congr (h : Heap ν κ) {s t : List ν} (hst : ∀ x, x∈s ↔ x∈t) :
    turned h s = turned h t := by
  simp only [turned, hst]

theorem turned_turned (h : Heap ν κ) (s : List ν) : turned (turned h s) s = h := by
  ext x
  · rfl
  · by_cases hx : x∈s
    · simp [turned, hx]
    · simp [turned, hx]
  · by_cases hx : x∈s
    · simp [turned, hx]
    · simp [turned, hx]

theorem turned_last (h : Heap ν κ) (s : List ν) (p : ν) :
    (turned h (s++[p])).next p = h.prev p := by
  simp [turned]

theorem reverseLoop_eq {h : Heap ν κ} {l p : ν} {s todo : List ν}
    (hp : Path h.prev (p::todo) l) (hn : (s++p::todo).Nodup) (hl : l∉todo) (fuel : Nat)
    (hf : todo.length < fuel) :
    reverseLoop l fuel (turned h s) p s = some (turned h (s++p::todo),s++p::todo) := by
  induction todo generalizing p s fuel with
  | nil =>
    obtain ⟨fuel,rfl⟩ := Nat.exists_eq_succ_of_ne_zero (Nat.ne_of_gt hf)
    have hps : p∉s := fun hm =>
      (List.nodup_cons.mp (List.nodup_middle.mp hn)).1 (List.mem_append_left _ hm)
    have hpl : h.prev p = l := hp
    simp only [reverseLoop, turned_concat h hps, turned_last, hpl, ne_eq, not_true, if_false]
  | cons q todo ih =>
    obtain ⟨fuel,rfl⟩ := Nat.exists_eq_succ_of_ne_zero (Nat.ne_of_gt (Nat.zero_lt_of_lt hf))
    have hps : p∉s := fun hm =>
      (List.nodup_cons.mp (List.nodup_middle.mp hn)).1 (List.mem_append_left _ hm)
    obtain ⟨hpq,hp⟩ : h.prev p = q ∧ Path h.prev (q::todo) l := hp
    have hql : q≠l := fun he => hl (he ▸ List.mem_cons_self)
    rw [List.append_cons] at hn ⊢
    have hnext := ih hp hn (fun hm => hl (List.mem_cons_of_mem q hm)) fuel (by simpa using hf)
    simp only [reverseLoop, turned_concat h hps, turned_last, hpq, ne_eq, hql,
      not_false_eq_true, if_true, hnext]

omit [DecidableEq ν] in
theorem Linked.prev_ring {h : Heap ν κ} (hl : Linked h) {a : ν} {x : List ν}
    (hx : RingOf h.next a x) : RingOf h.prev a x.reverse :=
  hx.reverse fun y _ => hl.prevNext y

theorem rlistReverse_eq {h : Heap ν κ} (hl : Linked h) {l : ν} {x : List ν}
    (hx : RingOf h.next l x) (fuel : Nat) (hf : x.length < fuel) :
    rlistReverse h l fuel = some (turned h (l::x),l::x.reverse) := by
  have hr := hl.prev_ring hx
  have hrun := reverseLoop_eq (s := []) hr.path hr.nodup (List.nodup_cons.mp hr.nodup).1 fuel
    (by simpa using hf)
  have hsame : turned h (l::x.reverse) = turned h (l::x) := turned_congr h (by simp)
  have hnil : turned h [] = h := by simp [turned]
  rw [List.nil_append, hsame, hnil] at hrun
  exact hrun

theorem turned_other (h : Heap ν κ) {s : List ν} {x : ν} (hx : x∉s) :
    (turned h s).next x = h.next x ∧ (turned h s).prev x = h.prev x := by
  simp [turned, hx]

theorem Linked.turned {h : Heap ν κ} (hl : Linked h) {l : ν} {x : List ν}
    (hx : RingOf h.next l x) : Linked (turned h (l::x)) := by
  have hin : ∀ y, y∈l::x ↔ h.next y∈l::x := by
    intro y
    refine ⟨hx.next_mem,fun hy => ?_⟩
    obtain ⟨z,hz,hzy⟩ := hx.exists_prev hy
    exact hl.next_injective hzy ▸ hz
  have hin' : ∀ y, y∈l::x ↔ h.prev y∈l::x := fun y => by rw [hin (h.prev y), hl.nextPrev]
  constructor
  · intro y
    by_cases hy : y∈l::x
    · simp only [RList.turned, if_pos hy, if_pos ((hin' y).mp hy), hl.nextPrev]
    · simp only [RList.turned, if_neg hy, if_neg (mt (hin y).mpr hy), hl.prevNext]
  · intro y
    by_cases hy : y∈l::x
    · simp only [RList.turned, if_pos hy, if_pos ((hin y).mp hy), hl.prevNext]
    · simp only [RList.turned, if_neg hy, if_neg (mt (hin' y).mpr hy), hl.nextPrev]

theorem turned_ring {h : Heap ν κ} (hl : Linked h) {l : ν} {x : List ν}
    (hx : RingOf h.next l x) : RingOf (turned h (l::x)).next l x.reverse := by
  have hr := hl.prev_ring hx
  refine ⟨hr.nodup,(path_congr fun y hy => ?_).mpr hr.path⟩
  have hm : y∈l::x := by simpa using hy
  simp only [turned, if_pos hm]

/-- rlist_reverse reverses in place: each node of the ring is visited once, the start does
not matter, and the second time undoes the first. -/
theorem rlistReverse_involution {h : Heap ν κ} (hl : Linked h)
    (hfin : {x | h.next x≠x}.Finite) (l : ν) :
    ∃ xs h', RingOf h.next l xs ∧
      (∀ fuel, xs.length < fuel → rlistReverse h l fuel = some (h',l::xs.reverse)) ∧
      Linked h' ∧ h'.key = h.key ∧ RingOf h'.next l xs.reverse ∧
      (∀ x∉l::xs, h'.next x = h.next x ∧ h'.prev x = h.prev x) ∧
      (∀ m∈l::xs, ∃ seen : List ν, seen.Perm (l::xs) ∧
        ∀ fuel, xs.length < fuel → rlistReverse h m fuel = some (h',seen)) ∧
      ∀ fuel, xs.length < fuel → ∃ seen, rlistReverse h' l fuel = some (h,seen) := by
  obtain ⟨xs,hx⟩ := exists_ringOf hl.next_injective hfin l
  refine ⟨xs,turned h (l::xs),hx,rlistReverse_eq hl hx,hl.turned hx,rfl,turned_ring hl hx,
    fun x hm => turned_other h hm,fun m hm => ?_,fun fuel hf => ?_⟩
  · cases List.mem_cons.mp hm with
    | inl he =>
      subst he
      exact ⟨m::xs.reverse,(List.reverse_perm xs).cons m,rlistReverse_eq hl hx⟩
    | inr hm =>
      obtain ⟨us,vs,rfl⟩ := List.mem_iff_append.mp hm
      have hperm : (m::(vs++l::us)).Perm (l::(us++m::vs)) := by
        rw [← List.cons_append, ← List.cons_append]
        exact List.perm_append_comm
      refine ⟨m::(vs++l::us).reverse,((List.reverse_perm _).cons m).trans hperm,
        fun fuel hf => ?_⟩
      have hlen : (vs++l::us).length < fuel := by
        have hsame := hperm.length_eq
        simp only [List.length_cons] at hsame
        omega
      rw [rlistReverse_eq hl hx.rotate fuel hlen, turned_congr h fun x => hperm.mem_iff]
  · have hback := rlistReverse_eq (hl.turned hx) (turned_ring hl hx) fuel (by simpa using hf)
    have hsame : turned (turned h (l::xs)) (l::xs.reverse) = turned (turned h (l::xs)) (l::xs) :=
      turned_congr _ (by simp)
    rw [hsame, turned_turned] at hback
    exact ⟨_,hback⟩

theorem rlistReverse_threeNodes :
    ∃ h' : Heap (Fin 3) Unit, rlistReverse threeNodes 0 3 = some (h',[0,2,1]) ∧
      RingOf h'.next 0 [2,1] := by
  have hr : RingOf threeNodes.next 0 [1,2] :=
    ⟨by decide,by simp [Ring.Path, threeNodes]⟩
  obtain ⟨xs,h',hx,hrun,-,-,hr',-⟩ := rlistReverse_involution (h := threeNodes)
    ⟨by decide,by decide⟩ (Set.toFinite _) 0
  have hxs : xs = [1,2] := hx.unique hr
  subst hxs
  exact ⟨h',hrun 3 (by simp),hr'⟩

end TinyOS.RList
