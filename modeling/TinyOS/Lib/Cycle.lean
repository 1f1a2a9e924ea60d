import Mathlib.Data.List.Iterate
import Mathlib.Data.Set.Finite.Basic
import Mathlib.Dynamics.PeriodicPts.Defs
import Mathlib.GroupTheory.Perm.List
import TinyOS.Lib.Ring

/-! Rings without a sentinel: each of the lists is a cycle of the successor function, and
every point of no list leads to itself. -/
namespace Ring
variable {ν ι : Type*} [DecidableEq ν]

theorem formPerm_concat {l : List ν} (hl : l≠[]) (x : ν) :
    (l++[x]).formPerm = l.formPerm*Equiv.swap (l.getLast hl) x := by
  have hsplit : l++[x] = l.dropLast++[l.getLast hl,x] := by
    conv_lhs => rw [← List.dropLast_append_getLast hl]
    simp
  calc (l++[x]).formPerm = (l.dropLast++[l.getLast hl,x]).formPerm := by rw [hsplit]
    _ = (l.dropLast++[l.getLast hl]).formPerm*Equiv.swap (l.getLast hl) x :=
        List.formPerm_append_pair _ _ _
    _ = l.formPerm*Equiv.swap (l.getLast hl) x := by rw [List.dropLast_append_getLast hl]

theorem formPerm_swap_append {us vs : List ν} (hn : (us++vs).Nodup) :
    (us++vs).formPerm = (vs++us).formPerm :=
  List.formPerm_eq_of_isRotated hn List.isRotated_append

theorem formPerm_erase {l : List ν} {x p : ν} (hn : l.Nodup) (hx : x∈l) (hp : l.formPerm p = x) :
    (l.erase x).formPerm = l.formPerm*Equiv.swap x p := by
  obtain ⟨us,vs,rfl⟩ := List.mem_iff_append.mp hx
  have hnot : x∉us := fun hm => (List.nodup_append.mp hn).2.2 x hm x (by simp) rfl
  have herase : (us++x::vs).erase x = us++vs := by
    rw [List.erase_append_right _ hnot, List.erase_cons_head]
  have hsmall : (us++vs).Nodup := herase ▸ hn.erase x
  -- Read from behind x on, the ring is vs++us with x at its end.
  have hrot : (us++x::vs).formPerm = (vs++us++[x]).formPerm := by
    rw [show us++x::vs = (us++[x])++vs by simp] at hn ⊢
    rw [formPerm_swap_append hn, List.append_assoc]
  have hxl : x∉vs++us := by
    intro hm
    have := (List.nodup_middle.mp hn).notMem
    exact this (by simpa [or_comm] using hm)
  rw [herase, formPerm_swap_append hsmall, hrot]
  rw [hrot] at hp
  by_cases hnil : vs++us = []
  · have hpx : p = x := by simpa [hnil] using hp
    rw [hnil, hpx, List.nil_append, List.formPerm_singleton, Equiv.swap_self]
    rfl
  · rw [formPerm_concat hnil] at hp ⊢
    have hq : ((vs++us).formPerm*Equiv.swap ((vs++us).getLast hnil) x)
      ((vs++us).getLast hnil) = x := by
      simp [List.formPerm_apply_of_notMem hxl]
    have : p = (vs++us).getLast hnil := Equiv.injective _ (hp.trans hq.symm)
    rw [this, mul_assoc, Equiv.swap_comm, Equiv.swap_mul_self, mul_one]

structure Cycles (f : ν → ν) (L : ι → List ν) : Prop where
  next : ∀ i, ∀ x∈L i, f x = (L i).formPerm x
  single : ∀ x, (∀ i, x∉L i) → f x = x
  nodup : ∀ i, (L i).Nodup
  disjoint : ∀ i j x, x∈L i → x∈L j → i = j

namespace Cycles
variable {f : ν → ν} {L : ι → List ν} {i : ι} {x p : ν}

theorem empty : Cycles (id : ν → ν) fun _ : ι => [] :=
  ⟨by simp,fun _ _ => rfl,by simp,by simp⟩

theorem next_mem (h : Cycles f L) (hx : x∈L i) : f x∈L i := by
  rw [h.next i x hx]
  exact List.formPerm_apply_mem_of_mem hx

theorem update [DecidableEq ι] (h : Cycles f L) {g : ν → ν} {l : List ν} (hn : l.Nodup)
    (hl : ∀ y∈l, ∀ j, j≠i → y∉L j) (hg : ∀ y∈l, g y = l.formPerm y)
    (hother : ∀ j, j≠i → ∀ y∈L j, g y = f y)
    (hsingle : ∀ y∉l, (∀ j, j≠i → y∉L j) → g y = y) : Cycles g (Function.update L i l) := by
  refine ⟨fun j y hy => ?_,fun y hy => ?_,fun j => ?_,fun j k y hj hk => ?_⟩
  · by_cases hji : j = i
    · subst hji
      rw [Function.update_self] at hy ⊢
      exact hg y hy
    · rw [Function.update_of_ne hji] at hy ⊢
      rw [hother j hji y hy, h.next j y hy]
  · refine hsingle y ?_ fun j hji => ?_
    · have := hy i
      rwa [Function.update_self] at this
    · have := hy j
      rwa [Function.update_of_ne hji] at this
  · by_cases hji : j = i
    · subst hji
      rwa [Function.update_self]
    · rw [Function.update_of_ne hji]
      exact h.nodup j
  · by_cases hji : j = i <;> by_cases hki : k = i
    · rw [hji, hki]
    · subst hji
      rw [Function.update_self] at hj
      rw [Function.update_of_ne hki] at hk
      exact absurd hk (hl y hj k hki)
    · subst hki
      rw [Function.update_self] at hk
      rw [Function.update_of_ne hji] at hj
      exact absurd hj (hl y hk j hji)
    · rw [Function.update_of_ne hji] at hj
      rw [Function.update_of_ne hki] at hk
      exact h.disjoint j k y hj hk

theorem push_nil [DecidableEq ι] (h : Cycles f L) (hi : L i = []) (hx : ∀ j, x∉L j) :
    Cycles f (Function.update L i [x]) := by
  refine h.update (List.nodup_singleton x) ?_ ?_ (fun _ _ _ _ => rfl) ?_
  · intro y hy j _
    rw [List.mem_singleton.mp hy]
    exact hx j
  · intro y hy
    rw [List.mem_singleton.mp hy, h.single x hx]
    simp
  · intro y _ hj
    refine h.single y fun j => ?_
    by_cases hji : j = i
    · simp [hji, hi]
    · exact hj j hji

theorem push_back [DecidableEq ι] (h : Cycles f L) (hi : L i≠[]) (hx : ∀ j, x∉L j) :
    Cycles (splice f ((L i).getLast hi) x) (Function.update L i (L i++[x])) := by
  set p := (L i).getLast hi with hp
  have hpm : p∈L i := List.getLast_mem hi
  have hf : ∀ y∈L i++[x], f y = (L i).formPerm y := by
    intro y hy
    rcases List.mem_append.mp hy with hy | hy
    · exact h.next i y hy
    · rw [List.mem_singleton.mp hy, h.single x hx, List.formPerm_apply_of_notMem (hx i)]
  have hne : ∀ j, j≠i → ∀ y∈L j, y≠p ∧ y≠x := by
    refine fun j hji y hy => ⟨?_,?_⟩
    · rintro rfl
      exact hji (h.disjoint j i p hy hpm)
    · rintro rfl
      exact hx j hy
  refine h.update ?_ ?_ ?_ ?_ ?_
  · refine List.nodup_append.mpr ⟨h.nodup i,List.nodup_singleton x,?_⟩
    intro y hy z hz hyz
    rw [hyz, List.mem_singleton.mp hz] at hy
    exact hx i hy
  · intro y hy j hji hm
    rcases List.mem_append.mp hy with hy | hy
    · exact hji (h.disjoint j i y hm hy)
    · exact hx j (List.mem_singleton.mp hy ▸ hm)
  · intro y hy
    rw [formPerm_concat hi, splice, Function.comp_apply, Equiv.Perm.mul_apply]
    refine hf _ ?_
    by_cases hyp : y = p
    · simp [hyp, hp]
    · by_cases hyx : y = x
      · simp [hyx, hpm]
      · rwa [Equiv.swap_apply_of_ne_of_ne hyp hyx]
  · intro j hji y hy
    obtain ⟨h1,h2⟩ := hne j hji y hy
    exact splice_other f h1 h2
  · intro y hy hj
    have hyi : y∉L i := fun hm => hy (List.mem_append_left _ hm)
    have hyp : y≠p := fun he => hyi (he ▸ hpm)
    have hyx : y≠x := fun he => hy (by simp [he])
    rw [splice_other f hyp hyx]
    refine h.single y fun j => ?_
    by_cases hji : j = i
    · exact hji ▸ hyi
    · exact hj j hji

theorem remove [DecidableEq ι] (h : Cycles f L) (hx : x∈L i) (hpm : p∈L i) (hp : f p = x) :
    Cycles (splice f x p) (Function.update L i ((L i).erase x)) := by
  have hne : ∀ j, j≠i → ∀ y∈L j, y≠x ∧ y≠p := by
    refine fun j hji y hy => ⟨?_,?_⟩
    · rintro rfl
      exact hji (h.disjoint j i y hy hx)
    · rintro rfl
      exact hji (h.disjoint j i y hy hpm)
  have hform := formPerm_erase (h.nodup i) hx (by rw [← h.next i p hpm, hp])
  refine h.update ((h.nodup i).erase x) ?_ ?_ ?_ ?_
  · intro y hy j hji hm
    exact hji (h.disjoint j i y hm (List.mem_of_mem_erase hy))
  · intro y hy
    rw [hform, splice, Function.comp_apply, Equiv.Perm.mul_apply]
    refine h.next i _ ?_
    by_cases hyx : y = x
    · simpa [hyx] using hpm
    · by_cases hyp : y = p
      · simpa [hyp] using hx
      · rw [Equiv.swap_apply_of_ne_of_ne hyx hyp]
        exact List.mem_of_mem_erase hy
  · intro j hji y hy
    obtain ⟨h1,h2⟩ := hne j hji y hy
    exact splice_other f h1 h2
  · intro y hy hj
    by_cases hyx : y = x
    · subst hyx
      rw [splice_left, hp]
    · have hyi : y∉L i := fun hm => hy ((List.mem_erase_of_ne hyx).mpr hm)
      have hyp : y≠p := fun he => hyi (he ▸ hpm)
      rw [splice_other f hyx hyp]
      refine h.single y fun j => ?_
      by_cases hji : j = i
      · exact hji ▸ hyi
      · exact hj j hji

omit [DecidableEq ν] in
theorem path_drop {g : ν → ν} {l : List ν} {c : ν}
    (hnext : ∀ k (hk : k+1<l.length), g l[k] = l[k+1])
    (hlast : ∀ hl : l≠[], g (l.getLast hl) = c) (k : Nat) (hk : k<l.length) :
    Path g (l.drop k) c := by
  induction hn : l.length-k generalizing k with
  | zero => omega
  | succ n ih =>
    rw [List.drop_eq_getElem_cons hk]
    by_cases hk' : k+1<l.length
    · have := ih (k+1) hk' (by omega)
      rw [List.drop_eq_getElem_cons hk'] at this ⊢
      exact ⟨hnext k hk',this⟩
    · have hl : l≠[] := List.ne_nil_of_length_pos (by omega)
      have he : l[k] = l.getLast hl := by
        rw [List.getLast_eq_getElem]
        congr 1
        omega
      rw [List.drop_eq_nil_of_le (by omega), he]
      exact hlast hl

theorem path (h : Cycles f L) {l : List ν} (hl : L i = x::l) : Path f (x::l) x := by
  have hn : (x::l).Nodup := hl ▸ h.nodup i
  have hf : ∀ k (hk : k<(x::l).length) (_ : (k+1)%(x::l).length<(x::l).length),
      f (x::l)[k] = (x::l)[(k+1)%(x::l).length] := by
    intro k hk _
    rw [h.next i _ (by rw [hl]; exact List.getElem_mem hk), hl]
    exact List.formPerm_apply_getElem _ hn k hk
  have hmod : ∀ k, (k+1)%(x::l).length<(x::l).length := fun k => Nat.mod_lt _ (by simp)
  have := path_drop (g := f) (l := x::l) (c := x) (fun k hk => ?_) (fun hne => ?_) 0 (by simp)
  · simpa using this
  · rw [hf k (by omega) (hmod k)]
    congr 1
    exact Nat.mod_eq_of_lt hk
  · rw [List.getLast_eq_getElem, hf _ (by simp) (hmod _)]
    simp

end Cycles

/-! Rings of an injective successor function, and their reversal. -/

section
variable {f g : ν → ν} {a c : ν} {x : List ν}

omit [DecidableEq ν] in
theorem mem_periodicPts (hf : Function.Injective f) (hfin : {x | f x≠x}.Finite) (a : ν) :
    a∈Function.periodicPts f := by
  by_contra hper
  have hne : ∀ i j, i < j → f^[i] a≠f^[j] a := fun i j hij he =>
    hper (Function.mk_mem_periodicPts (Nat.sub_pos_of_lt hij) (Function.iterate_cancel hf he.symm))
  have hinj : Function.Injective fun i => f^[i] a := by
    intro i j he
    rcases Nat.lt_trichotomy i j with hij | hij | hij
    · exact absurd he (hne i j hij)
    · exact hij
    · exact absurd he.symm (hne j i hij)
  refine Set.infinite_of_injective_forall_mem hinj (fun i => ?_) hfin
  show f (f^[i] a)≠f^[i] a
  rw [← Function.iterate_succ_apply' f i a]
  exact (hne i (i+1) (Nat.lt_succ_self i)).symm

omit [DecidableEq ν] in
theorem path_iterate (f : ν → ν) (n : Nat) (a : ν) :
    Path f (List.iterate f a n) (f^[n] a) := by
  induction n generalizing a with
  | zero => trivial
  | succ n ih =>
    rw [List.iterate, Function.iterate_succ_apply, path_cons]
    refine ⟨?_,ih (f a)⟩
    cases n with
    | zero => rfl
    | succ n => rfl

omit [DecidableEq ν] in
/-- Where only finitely many points move, each point lies on a ring. -/
theorem exists_ringOf (hf : Function.Injective f) (hfin : {x | f x≠x}.Finite) (a : ν) :
    ∃ x, RingOf f a x := by
  have hpos := Function.minimalPeriod_pos_of_mem_periodicPts (mem_periodicPts hf hfin a)
  have hend := Function.iterate_minimalPeriod (f := f) (x := a)
  have hinj := Function.iterate_injOn_Iio_minimalPeriod (f := f) (x := a)
  obtain ⟨n,hn⟩ := Nat.exists_eq_succ_of_ne_zero (Nat.ne_of_gt hpos)
  rw [hn] at hend hinj
  refine ⟨List.iterate f (f a) n,?_,?_⟩
  · have hmap := List.range_map_iterate (n+1) f a
    rw [List.iterate] at hmap
    rw [← hmap]
    refine List.Nodup.map_on (fun i hi j hj he => ?_) List.nodup_range
    exact hinj (List.mem_range.mp hi) (List.mem_range.mp hj) he
  · have hp := path_iterate f (n+1) a
    rw [hend] at hp
    exact hp

omit [DecidableEq ν] in
theorem path_reverse {l : List ν} (hg : ∀ y∈a::l, g (f y) = y) (h : Path f (a::l) c) :
    Path g (c::l.reverse) a := by
  induction l generalizing a with
  | nil =>
    have hfa : f a = c := h
    show g c = a
    rw [← hfa, hg a List.mem_cons_self]
  | cons b l ih =>
    have hb := ih (fun y hy => hg y (List.mem_cons_of_mem a hy)) h.2
    rw [List.reverse_cons, ← List.cons_append, path_append]
    refine ⟨hb,?_⟩
    show g b = a
    rw [← h.1, hg a List.mem_cons_self]

omit [DecidableEq ν] in
theorem RingOf.reverse (h : RingOf f a x) (hg : ∀ y∈a::x, g (f y) = y) :
    RingOf g a x.reverse := by
  refine ⟨?_,path_reverse hg h.path⟩
  exact (((List.reverse_perm x).cons a).nodup_iff).mpr h.nodup

end

end Ring
