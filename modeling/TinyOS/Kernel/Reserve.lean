import TinyOS.Kernel.Refs

/-! FCB_reserve and the calls built on it: the FCBs come off the free list one by one
and go back to it when a fid, an FCB or a device is missing. -/
namespace TinyOS.Kernel
open RList Tally

section Reserve
variable {F : Files} {n : FcbRef → Nat} {p : PcbRef} {fl : List FcbRef}

theorem skipUsed_le (T : Fid → Option FcbRef) (fuel f : Nat) : f ≤ skipUsed T fuel f := by
  induction fuel generalizing f with
  | zero => exact Nat.le_refl f
  | succ fuel ih =>
    unfold skipUsed
    split
    · split
      · exact Nat.le_of_succ_le (ih (f+1))
      · exact Nat.le_refl f
    · exact Nat.le_refl f

theorem skipUsed_free (T : Fid → Option FcbRef) {fuel f : Nat} (hf : MAX_FILEID≤f+fuel)
    (h : skipUsed T fuel f<MAX_FILEID) : T ⟨skipUsed T fuel f,h⟩ = none := by
  induction fuel generalizing f with
  | zero =>
    simp only [skipUsed, MAX_FILEID] at h hf
    omega
  | succ fuel ih =>
    by_cases hlt : f<MAX_FILEID
    · by_cases hs : (T ⟨f,hlt⟩).isSome
      · have he : skipUsed T (fuel+1) f = skipUsed T fuel (f+1) := by simp [skipUsed, hlt, hs]
        simp only [he] at h ⊢
        exact ih (by omega) h
      · have he : skipUsed T (fuel+1) f = f := by simp [skipUsed, hlt, hs]
        simp only [he]
        simpa using hs
    · have he : skipUsed T (fuel+1) f = f := by simp [skipUsed, hlt]
      rw [he] at h
      exact absurd h hlt

theorem findFids_spec (T : Fid → Option FcbRef) (num f : Nat) :
    (∀ i∈findFids T num f, T i = none ∧ f ≤ i.val) ∧ (findFids T num f).Pairwise (· < ·) := by
  induction num generalizing f with
  | zero => simp [findFids]
  | succ num ih =>
    have hle := skipUsed_le T (MAX_FILEID-f) f
    simp only [findFids]
    split
    · rename_i hlt
      obtain ⟨hfree,hpair⟩ := ih (skipUsed T (MAX_FILEID-f) f+1)
      constructor
      · intro i hi
        rcases List.mem_cons.mp hi with rfl | hi
        · exact ⟨skipUsed_free T (by omega) hlt,hle⟩
        · have := hfree i hi
          exact ⟨this.1,by omega⟩
      · refine List.pairwise_cons.mpr ⟨fun i hi => ?_,hpair⟩
        have := (hfree i hi).2
        exact Fin.lt_def.mpr (by simp; omega)
    · simp

theorem findFids_nodup (T : Fid → Option FcbRef) (num f : Nat) : (findFids T num f).Nodup :=
  (findFids_spec T num f).2.imp fun h => ne_of_lt h

theorem acquireFCB_cons {f : FcbRef} (hr : FreeRing F.heap (f::fl)) :
    acquireFCB F = some ({ F with heap := (rlistPopFront F.heap .FCB_freelist).1 }.modFCB f
      fun b => { b with refcount := 0 },some f) := by
  have hkey : (rlistPopFront F.heap .FCB_freelist).1.key (rlistPopFront F.heap .FCB_freelist).2 =
      some f := by
    rw [hr.pop_front.1, hr.pop_front.2.key]
    rfl
  simp only [acquireFCB, hr.isEmpty_eq, reduceCtorEq, decide_false, Bool.false_eq_true, if_false]
  rw [show rlistPopFront F.heap .FCB_freelist = ((rlistPopFront F.heap .FCB_freelist).1,
    (rlistPopFront F.heap .FCB_freelist).2) from rfl]
  simp only [hkey]

theorem acquireFCBs_eq (num : Nat) (hr : FreeRing F.heap fl) :
    ∃ F', acquireFCBs num F = some (F',fl.take num) ∧ FreeRing F'.heap (fl.drop num) ∧
      F'.FIDT = F.FIDT ∧ F'.log = F.log ∧
      (∀ f, f∉fl.take num → F'.FT f = F.FT f) ∧ ∀ f∈fl.take num, (F'.FT f).refcount = 0 := by
  induction num generalizing F fl with
  | zero => exact ⟨F,by simp [acquireFCBs],by simpa using hr,rfl,rfl,fun _ _ => rfl,by simp⟩
  | succ num ih =>
    cases fl with
    | nil =>
      refine ⟨F,?_,by simpa using hr,rfl,rfl,fun _ _ => rfl,by simp⟩
      simp [acquireFCBs, acquireFCB, hr.isEmpty_eq]
    | cons f fl =>
      have hnodup := List.nodup_cons.mp hr.nodup
      set F1 := { F with heap := (rlistPopFront F.heap .FCB_freelist).1 }.modFCB f
        fun b => { b with refcount := 0 } with hF1
      obtain ⟨F',hacq,hring,hT,hlog,hFT,hzero⟩ := ih (F := F1) hr.pop_front.2
      have hft : f∉fl.take num := fun hm => hnodup.1 (List.mem_of_mem_take hm)
      refine ⟨F',?_,by simpa using hring,hT,hlog,?_,?_⟩
      · simp [acquireFCBs, acquireFCB_cons hr, ← hF1, hacq]
      · intro g hg
        simp only [List.take_succ_cons, List.mem_cons, not_or] at hg
        rw [hFT g hg.2]
        simp [hF1, Files.modFCB, hg.1]
      · intro g hg
        simp only [List.take_succ_cons, List.mem_cons] at hg
        rcases hg with rfl | hg
        · rw [hFT g hft]
          simp [hF1, Files.modFCB]
        · exact hzero g hg

theorem releaseFCBs_eq (l : List FcbRef) (hr : FreeRing F.heap fl) (hn : (fl++l).Nodup) :
    ∃ h, l.foldl releaseFCB F = { F with heap := h } ∧ FreeRing h (fl++l) := by
  induction l generalizing F fl with
  | nil => exact ⟨F.heap,rfl,by simpa using hr⟩
  | cons f l ih =>
    have hf : f∉fl := by
      intro hm
      have := (List.nodup_append.mp hn).2.2 f hm f (by simp)
      exact this rfl
    obtain ⟨h,he,hring⟩ := ih (F := releaseFCB F f) (hr.push_back hf) (by simpa using hn)
    exact ⟨h,by rw [List.foldl_cons, he]; rfl,by simpa using hring⟩

theorem install_spec (xs : List (Fid × FcbRef)) (hfid : (xs.map Prod.fst).Nodup)
    (hfcb : (xs.map Prod.snd).Nodup) (hnone : ∀ x∈xs, F.FIDT p x.1 = none) :
    ∃ F', xs.foldl (installFCB p) F = F' ∧ F'.heap = F.heap ∧ F'.log = F.log ∧
      (∀ q, q≠p → F'.FIDT q = F.FIDT q) ∧
      (∀ i, i∉xs.map Prod.fst → F'.FIDT p i = F.FIDT p i) ∧
      (∀ x∈xs, F'.FIDT p x.1 = some x.2) ∧
      (∀ f, slots F' f = slots F f+(xs.map Prod.snd).count f) ∧
      (∀ f, f∉xs.map Prod.snd → F'.FT f = F.FT f) ∧
      ∀ f∈xs.map Prod.snd, F'.FT f = { F.FT f with refcount := (F.FT f).refcount+1 } := by
  induction xs generalizing F with
  | nil => exact ⟨F,rfl,rfl,rfl,fun _ _ => rfl,fun _ _ => rfl,by
      simp,by simp,fun _ _ => rfl,by simp⟩
  | cons x xs ih =>
    obtain ⟨fid,f⟩ := x
    simp only [List.map_cons, List.nodup_cons] at hfid hfcb
    set F1 := installFCB p F (fid,f) with hF1
    have hT1 : F1.FIDT = (F.setFid p fid (some f)).FIDT := rfl
    have hx : F.FIDT p fid = none := hnone (fid,f) (by simp)
    obtain ⟨F',hF',hheap,hlog,hq,hi,hset,hslots,hFT,hFT'⟩ := ih hfid.2 hfcb.2 (F := F1) (by
      intro y hy
      have hne : y.1≠fid := fun he => hfid.1 (he ▸ List.mem_map_of_mem hy)
      rw [hT1]
      simpa [Files.setFid, hne] using hnone y (by simp [hy]))
    have hFT1 : F1.FT = Function.update F.FT f
      { F.FT f with refcount := (F.FT f).refcount+1 } := rfl
    refine ⟨F',by rw [List.foldl_cons, ← hF1, hF'],by rw [hheap]; rfl,by rw [hlog]; rfl,?_,?_,?_,?_,?_,?_⟩
    · intro q hqp
      rw [hq q hqp, hT1]
      simp [Files.setFid, hqp]
    · intro i hm
      simp only [List.map_cons, List.mem_cons, not_or] at hm
      rw [hi i hm.2, hT1]
      simp [Files.setFid, hm.1]
    · intro y hy
      rcases List.mem_cons.mp hy with rfl | hy
      · rw [hi fid hfid.1, hT1]
        simp [Files.setFid]
      · exact hset y hy
    · intro g
      have h1 := slots_congr hT1 g
      have h2 := slots_setFid F p fid (some f) g
      rw [hslots, h1]
      simp only [hx, reduceCtorEq, if_false, Nat.add_zero, Option.some.injEq] at h2
      rw [h2, List.map_cons, List.count_cons]
      simp only [beq_iff_eq]
      omega
    · intro g hg
      simp only [List.map_cons, List.mem_cons, not_or] at hg
      rw [hFT g hg.2, hFT1, Function.update_of_ne hg.1]
    · intro g hg
      by_cases hgf : g = f
      · subst hgf
        rw [hFT g hfcb.1, hFT1, Function.update_self]
      · simp only [List.map_cons, List.mem_cons, hgf, false_or] at hg
        rw [hFT' g hg, hFT1, Function.update_of_ne hgf]

theorem findFids_length_le (T : Fid → Option FcbRef) (num f : Nat) :
    (findFids T num f).length≤num := by
  induction num generalizing f with
  | zero => simp [findFids]
  | succ num ih =>
    simp only [findFids]
    split
    · simpa using ih _
    · simp

theorem skipUsed_used (T : Fid → Option FcbRef) {fuel f : Nat} {i : Fid} (hi : f ≤ i.val)
    (h : i.val < skipUsed T fuel f) : T i≠none := by
  induction fuel generalizing f with
  | zero =>
    simp only [skipUsed] at h
    omega
  | succ fuel ih =>
    by_cases hlt : f<MAX_FILEID
    · by_cases hs : (T ⟨f,hlt⟩).isSome
      · have he : skipUsed T (fuel+1) f = skipUsed T fuel (f+1) := by simp [skipUsed, hlt, hs]
        rw [he] at h
        by_cases hif : i.val = f
        · have hif' : i = ⟨f,hlt⟩ := Fin.ext hif
          rw [hif']
          exact Option.isSome_iff_ne_none.mp hs
        · exact ih (by omega) h
      · have he : skipUsed T (fuel+1) f = f := by simp [skipUsed, hlt, hs]
        omega
    · have := i.isLt
      omega

def emptyFids (T : Fid → Option FcbRef) : List Fid :=
  (List.finRange MAX_FILEID).filter fun i => T i = none

theorem emptyFids_sorted (T : Fid → Option FcbRef) : (emptyFids T).Pairwise (· < ·) :=
  (List.sortedLT_finRange MAX_FILEID).pairwise.filter _

theorem mem_emptyFids {T : Fid → Option FcbRef} {i : Fid} : i∈emptyFids T ↔ T i = none := by
  simp [emptyFids]

theorem findFids_eq (T : Fid → Option FcbRef) (num f : Nat) :
    findFids T num f = ((emptyFids T).filter fun i => f ≤ i.val).take num := by
  induction num generalizing f with
  | zero => simp [findFids]
  | succ num ih =>
    have hle := skipUsed_le T (MAX_FILEID-f) f
    have hused : ∀ i, T i = none → f ≤ i.val → skipUsed T (MAX_FILEID-f) f ≤ i.val := by
      intro i hi hf
      by_contra hlt
      exact skipUsed_used T hf (not_le.mp hlt) hi
    simp only [findFids]
    split
    · rename_i hlt
      have hfree := skipUsed_free T (by omega) hlt
      have hcons : ((emptyFids T).filter fun i => f ≤ i.val) = ⟨skipUsed T (MAX_FILEID-f) f,hlt⟩::
          (emptyFids T).filter fun i => skipUsed T (MAX_FILEID-f) f+1 ≤ i.val := by
        refine List.Pairwise.eq_of_mem_iff ((emptyFids_sorted T).filter _)
          (List.pairwise_cons.mpr ⟨?_,(emptyFids_sorted T).filter _⟩) ?_
        · intro i hi
          have := (List.mem_filter.mp hi).2
          exact Fin.lt_def.mpr (by simpa using this)
        · intro i
          simp only [List.mem_cons, List.mem_filter, mem_emptyFids, decide_eq_true_eq, Fin.ext_iff]
          constructor
          · rintro ⟨hi,hf⟩
            have := hused i hi hf
            exact or_iff_not_imp_left.mpr fun hne => ⟨hi,by omega⟩
          · rintro (hi | ⟨hi,hf⟩)
            · have hi' : i = ⟨_,hlt⟩ := Fin.ext hi
              exact ⟨hi' ▸ hfree,by omega⟩
            · exact ⟨hi,by omega⟩
      rw [ih, hcons, List.take_succ_cons]
    · rename_i hge
      have hnil : ((emptyFids T).filter fun i => f ≤ i.val) = [] := by
        refine List.filter_eq_nil_iff.mpr fun i hi => ?_
        have h1 := hused i (mem_emptyFids.mp hi)
        have h2 := i.isLt
        simp only [decide_eq_true_eq]
        omega
      rw [hnil, List.take_nil]

theorem findFids_zero (T : Fid → Option FcbRef) (num : Nat) :
    findFids T num 0 = (emptyFids T).take num := by
  rw [findFids_eq]
  congr 1
  exact List.filter_eq_self.mpr fun _ _ => by simp

/-- With enough fids and FCBs, FCB_reserve installs the first free FCBs. -/
theorem reserve_ok {num : Nat} (hr : FreeRing F.heap fl)
    (hfid : ¬(findFids (F.FIDT p) num 0).length<num) (hfl : num≤fl.length) :
    ∃ F', reserveFCB F p num = some (F',some (findFids (F.FIDT p) num 0,fl.take num)) ∧
      FreeRing F'.heap (fl.drop num) ∧ F'.log = F.log ∧ (∀ q, q≠p → F'.FIDT q = F.FIDT q) ∧
      (∀ i, i∉findFids (F.FIDT p) num 0 → F'.FIDT p i = F.FIDT p i) ∧
      (∀ x∈(findFids (F.FIDT p) num 0).zip (fl.take num), F'.FIDT p x.1 = some x.2) ∧
      (∀ f, slots F' f = slots F f+(fl.take num).count f) ∧
      (∀ f, f∉fl.take num → F'.FT f = F.FT f) ∧
      ∀ f∈fl.take num, (F'.FT f).refcount = 1 := by
  obtain ⟨F1,hacq,hring,hT,hlog,hFT,hzero⟩ := acquireFCBs_eq num hr
  have hlen : (findFids (F.FIDT p) num 0).length = num :=
    Nat.le_antisymm (findFids_length_le _ _ _) (by omega)
  have hlen' : (fl.take num).length = num := by simp [hfl]
  have hfst : ((findFids (F.FIDT p) num 0).zip (fl.take num)).map Prod.fst =
      findFids (F.FIDT p) num 0 := List.map_fst_zip (by omega)
  have hsnd : ((findFids (F.FIDT p) num 0).zip (fl.take num)).map Prod.snd = fl.take num :=
    List.map_snd_zip (by omega)
  obtain ⟨F',hF',hheap,hlog',hq,hi,hset,hslots,hFT1,hFT2⟩ := install_spec (F := F1) (p := p)
    ((findFids (F.FIDT p) num 0).zip (fl.take num))
    (by rw [hfst]; exact findFids_nodup _ _ _)
    (by rw [hsnd]; exact (List.take_sublist _ _).nodup hr.nodup) (by
      intro x hx
      rw [hT]
      exact ((findFids_spec (F.FIDT p) num 0).1 x.1 (hfst ▸ List.mem_map_of_mem hx)).1)
  rw [hfst] at hi
  rw [hsnd] at hslots hFT1 hFT2
  refine ⟨F',?_,by rw [hheap]; exact hring,by rw [hlog', hlog],fun q hqp => by rw [hq q hqp, hT],
    fun i hm => by rw [hi i hm, hT],hset,?_,?_,?_⟩
  · simp only [reserveFCB, hfid, if_false, hacq, Option.map_some, hlen', Nat.lt_irrefl, hF']
  · intro f
    rw [hslots, slots_congr hT]
  · intro f hf
    rw [hFT1 f hf, hFT f hf]
  · intro f hf
    rw [hFT2 f hf]
    simp [hzero f hf]

/-- Otherwise FCB_reserve puts the FCBs back, perhaps in another order. -/
theorem reserve_fail {num : Nat} (hr : FreeRing F.heap fl)
    (h : (findFids (F.FIDT p) num 0).length<num ∨ fl.length<num) :
    ∃ F' fl', reserveFCB F p num = some (F',none) ∧ FreeRing F'.heap fl' ∧ fl'.Perm fl ∧
      F'.FIDT = F.FIDT ∧ F'.log = F.log ∧ ∀ f, f∉fl → F'.FT f = F.FT f := by
  by_cases hfid : (findFids (F.FIDT p) num 0).length<num
  · exact ⟨F,fl,by simp [reserveFCB, hfid],hr,.refl _,rfl,rfl,fun _ _ => rfl⟩
  · have hfl : fl.length<num := h.resolve_left hfid
    obtain ⟨F1,hacq,hring,hT,hlog,hFT,-⟩ := acquireFCBs_eq num hr
    rw [List.take_of_length_le (by omega)] at hacq hFT
    rw [List.drop_of_length_le (by omega)] at hring
    obtain ⟨h',he,hring'⟩ := releaseFCBs_eq fl.reverse hring (by simpa using hr.nodup)
    refine ⟨{ F1 with heap := h' },
      fl.reverse,?_,by simpa using hring',List.reverse_perm _,hT,hlog,hFT⟩
    simp only [reserveFCB, hfid, if_false, hacq, Option.map_some, hfl, if_true, he]

theorem unreserve_ok (xs : List (Fid × FcbRef)) (hr : FreeRing F.heap fl)
    (hfid : (xs.map Prod.fst).Nodup) (hfcb : (fl++xs.map Prod.snd).Nodup)
    (hset : ∀ x∈xs, F.FIDT p x.1 = some x.2) :
    ∃ F', unreserveFCB p xs F = some F' ∧ FreeRing F'.heap (fl++xs.map Prod.snd) ∧
      (∀ q, q≠p → F'.FIDT q = F.FIDT q) ∧
      (∀ i, F'.FIDT p i = if i∈xs.map Prod.fst then none else F.FIDT p i) ∧ F'.FT = F.FT := by
  induction xs generalizing F fl with
  | nil => exact ⟨F,rfl,by simpa using hr,fun _ _ => rfl,fun _ => by simp,rfl⟩
  | cons x xs ih =>
    obtain ⟨fid,f⟩ := x
    simp only [List.map_cons, List.nodup_cons] at hfid hfcb
    have hf : f∉fl := fun hm => (List.nodup_append.mp hfcb).2.2 f hm f (by simp) rfl
    set F1 := releaseFCB (F.setFid p fid none) f with hF1
    have hT1 : F1.FIDT = (F.setFid p fid none).FIDT := rfl
    obtain ⟨F',he,hring,hq,hi,hFT⟩ := ih (F := F1) (hr.push_back hf) hfid.2 (by simpa using hfcb) (by
      intro y hy
      have hne : y.1≠fid := fun he => hfid.1 (he ▸ List.mem_map_of_mem hy)
      rw [hT1]
      simpa [Files.setFid, hne] using hset y (by simp [hy]))
    refine ⟨F',?_,by simpa using hring,?_,?_,hFT⟩
    · rw [unreserveFCB, if_pos (hset (fid,f) (by simp)), ← hF1, he]
    · intro q hqp
      rw [hq q hqp, hT1]
      simp [Files.setFid, hqp]
    · intro i
      rw [hi i, hT1]
      by_cases hif : i = fid
      · simp [Files.setFid, hif]
      · simp [Files.setFid, hif]

theorem Counted.reorder {F' : Files} {R : FcbRef → Nat} {fl' : List FcbRef} (h : Counted F R fl)
    (hr : FreeRing F'.heap fl') (hp : fl'.Perm fl) (hFT : ∀ f, f∉fl → F'.FT f = F.FT f) :
    Counted F' R fl' := by
  have hused : ∀ f, 0<R f → F'.FT f = F.FT f := fun f hf =>
    hFT f fun hm => by simp [(h.free f).mp hm] at hf
  refine ⟨hr,fun f => by rw [hp.mem_iff, h.free],?_,?_⟩
  · intro f hf
    rw [hused f hf]
    exact h.count f hf
  · intro f hf
    rw [hused f hf]
    exact h.stream f hf

theorem Counted.opened {F' : Files} (num : Nat) (h : Counted F (refs F n) fl)
    (hr : FreeRing F'.heap (fl.drop num)) (hlog : F'.log = F.log++(fl.take num).map .opened)
    (hslots : ∀ f, slots F' f = slots F f+(fl.take num).count f)
    (hFT : ∀ f, f∉fl.take num → F'.FT f = F.FT f)
    (hnew : ∀ f∈fl.take num, (F'.FT f).refcount = 1 ∧ (F'.FT f).streamfunc≠none) :
    FilesStep F n F' n := by
  have hnodup : (fl.take num).Nodup := (List.take_sublist _ _).nodup h.ring.nodup
  have hfree : ∀ f∈fl.take num, refs F n f = 0 := fun f hf =>
    (h.free f).mp (List.mem_of_mem_take hf)
  have hrefs : ∀ f, refs F' n f = if f∈fl.take num then 1 else refs F n f := by
    intro f
    have hs := hslots f
    split
    · rename_i hf
      have h0 := hfree f hf
      rw [List.count_eq_one_of_mem hnodup hf] at hs
      unfold refs at h0 ⊢
      omega
    · rename_i hf
      rw [List.count_eq_zero_of_not_mem hf] at hs
      unfold refs
      omega
  have hdrop : ∀ f, f∈fl.drop num ↔ f∈fl ∧ f∉fl.take num := by
    intro f
    have hn := h.ring.nodup
    rw [← List.take_append_drop num fl] at hn
    constructor
    · intro hf
      exact ⟨List.mem_of_mem_drop hf,fun hm => (List.nodup_append.mp hn).2.2 f hm f hf rfl⟩
    · rintro ⟨hf,hm⟩
      rw [← List.take_append_drop num fl, List.mem_append] at hf
      exact hf.resolve_left hm
  refine ⟨⟨fl.drop num,hr,?_,?_,?_⟩,_,hlog,?_⟩
  · intro f
    rw [hdrop, hrefs, h.free]
    split <;> simp [*]
  · intro f hf
    rw [hrefs] at hf ⊢
    split
    · rename_i hm
      rw [(hnew f hm).1]
      rfl
    · rename_i hm
      rw [if_neg hm] at hf
      rw [hFT f hm]
      exact h.count f hf
  · intro f hf
    rw [hrefs] at hf
    by_cases hm : f∈fl.take num
    · exact (hnew f hm).2
    · rw [if_neg hm] at hf
      rw [hFT f hm]
      exact h.stream f hf
  · intro f
    have hopen : ((fl.take num).map StreamEvent.opened).count (.opened f) = (fl.take num).count f :=
      List.count_map_of_injective _ _ (fun a b he => by cases he; rfl) f
    have hclosed : ((fl.take num).map StreamEvent.opened).count (.closed f) = 0 :=
      List.count_eq_zero.mpr fun hm => by
        obtain ⟨g,-,he⟩ := List.mem_map.mp hm
        cases he
    rw [hopen, hclosed, hrefs]
    by_cases hm : f∈fl.take num
    · simp [hm, hfree f hm, List.count_eq_one_of_mem hnodup hm]
    · have hz : ¬(0 < refs F n f ∧ refs F n f = 0) := by omega
      have hz' : ¬(refs F n f = 0 ∧ 0 < refs F n f) := by omega
      simp only [if_neg hm, if_neg hz, if_neg hz', List.count_eq_zero_of_not_mem hm, and_self]

theorem findFids_none {T : Fid → Option FcbRef} (h : ∀ i, T i = none) : findFids T 1 0 = [0] := by
  have hall : emptyFids T = List.finRange MAX_FILEID :=
    List.filter_eq_self.mpr fun i _ => decide_eq_true (h i)
  rw [findFids_zero, hall]
  rfl

theorem openStream_null {f : FcbRef} (hr : FreeRing F.heap (f::fl)) (hnone : ∀ i, F.FIDT p i = none)
    (ports : Nat) : ∃ F', openStream F p ports .DEV_NULL 0 = some (F',0) ∧ F'.FIDT p 0 = some f := by
  obtain ⟨F',hres,-,-,-,-,hset,-⟩ := reserve_ok (p := p) hr
    (show ¬(findFids (F.FIDT p) 1 0).length<1 by simp [findFids_none hnone]) (by simp)
  rw [findFids_none hnone] at hres hset
  have hdev : deviceOpen ports .DEV_NULL 0 = some (none,.nulldev) := rfl
  refine ⟨setStream F' f none .nulldev,?_,?_⟩
  · simp only [openStream, hres, Option.bind_some, List.take_succ_cons, List.take_zero, hdev]
    rfl
  · exact hset (0,f) (by simp)

theorem FilesOk.openStream (h : FilesOk F n) (p : PcbRef) (ports : Nat) (major : DeviceType)
    (minor : Nat) : ∃ r, openStream F p ports major minor = some r ∧ OwnStep F n p r.1 := by
  obtain ⟨fl,hc⟩ := h
  by_cases hfail : (findFids (F.FIDT p) 1 0).length<1 ∨ fl.length<1
  · obtain ⟨F',fl',hres,hring,hperm,hT,hlog,hFT⟩ := reserve_fail hc.ring hfail
    have hc' := hc.reorder hring hperm hFT
    rw [← refs_congr hT] at hc'
    refine ⟨(F',NOFILE),by simp [Kernel.openStream, hres],⟨⟨fl',hc'⟩,[],by simp [hlog],?_⟩,fun _ _ => by rw [hT]⟩
    rw [refs_congr hT]
    exact Emits.nil fun _ => Iff.rfl
  · obtain ⟨hfid,hlen⟩ := not_or.mp hfail
    obtain ⟨F',hres,hring,hlog,hq,hi,hset,hslots,hFT,hone⟩ := reserve_ok (p := p) hc.ring hfid
      (by omega)
    have hfree := (findFids_spec (F.FIDT p) 1 0).1
    obtain ⟨fid,hfids⟩ : ∃ fid, findFids (F.FIDT p) 1 0 = [fid] :=
      List.length_eq_one_iff.mp (Nat.le_antisymm (findFids_length_le _ _ _) (by omega))
    obtain ⟨f,fl,rfl⟩ : ∃ f fl', fl = f::fl' := List.exists_cons_of_length_pos (by omega)
    simp only [List.take_succ_cons, List.take_zero, List.drop_succ_cons, List.drop_zero, hfids] at *
    have hslot : F'.FIDT p fid = some f := hset (fid,f) (by simp)
    cases hdev : deviceOpen ports major minor with
    | none =>
      have hT : (F'.setFid p fid none).FIDT = F.FIDT := by
        funext q i
        by_cases hqp : q = p
        · subst hqp
          by_cases hif : i = fid
          · subst hif
            simpa [Files.setFid] using ((hfree i (by simp)).1).symm
          · simpa [Files.setFid, hif] using hi i (by simpa using hif)
        · simp [Files.setFid, hqp, hq q hqp]
      have hf : f∉fl := (List.nodup_cons.mp hc.ring.nodup).1
      have hc' : Counted (releaseFCB (F'.setFid p fid none) f) (refs F n) (fl++[f]) :=
        hc.reorder (hring.push_back hf) (List.perm_append_singleton f fl)
          (fun g hg => hFT g fun hm => hg (by simp_all))
      have hT' : (releaseFCB (F'.setFid p fid none) f).FIDT = F.FIDT := hT
      refine ⟨(releaseFCB (F'.setFid p fid none) f,NOFILE),?_,⟨⟨fl++[f],?_⟩,[],?_,?_⟩,?_⟩
      · simp [Kernel.openStream, hres, hdev, unreserveFCB, hslot]
      · rw [refs_congr hT']
        exact hc'
      · simpa [releaseFCB, Files.setFid] using hlog
      · rw [refs_congr hT']
        exact Emits.nil fun _ => Iff.rfl
      · intro q _
        rw [hT']
    | some d =>
      obtain ⟨obj,ops⟩ := d
      refine ⟨(setStream F' f obj ops,fid.val),by simp [Kernel.openStream, hres, hdev],?_,hq⟩
      refine hc.opened 1 hring (by simp [setStream, hlog]) ?_ ?_ ?_
      · intro g
        rw [slots_congr (show (setStream F' f obj ops).FIDT = F'.FIDT from rfl), hslots]
        simp
      · intro g hg
        have hgf : g≠f := by simpa using hg
        rw [← hFT g (by simpa using hgf)]
        simp [setStream, Files.modFCB, hgf]
      · intro g hg
        obtain rfl : g = f := by simpa using hg
        simpa [setStream, Files.modFCB] using hone

theorem FilesOk.pseudoConsole (h : FilesOk F n) {F' : Files} (hF : pseudoConsole F p = some F') :
    OwnStep F n p F' := by
  obtain ⟨fl,hc⟩ := h
  unfold Kernel.pseudoConsole at hF
  by_cases hfail : (findFids (F.FIDT p) 2 0).length<2 ∨ fl.length<2
  · obtain ⟨F1,fl',hres,-⟩ := reserve_fail hc.ring hfail
    simp [hres] at hF
  · obtain ⟨hfid,hlen⟩ := not_or.mp hfail
    obtain ⟨F1,hres,hring,hlog,hq,-,-,hslots,hFT,hone⟩ := reserve_ok (p := p) hc.ring hfid
      (by omega)
    obtain ⟨f,fl,rfl⟩ : ∃ f fl', fl = f::fl' := List.exists_cons_of_length_pos (by omega)
    obtain ⟨g,fl,rfl⟩ : ∃ g fl', fl = g::fl' :=
      List.exists_cons_of_length_pos (by simp only [List.length_cons] at hlen; omega)
    simp only [List.take_succ_cons, List.take_zero, List.drop_succ_cons,
      List.drop_zero] at hres hring hslots hFT hone
    have hfg : f≠g := by
      have := hc.ring.nodup
      simp at this
      exact this.1.1
    have hF' : F' = setStream (setStream F1 f none .stdio) g none .stdio := by
      rw [hres, Option.bind_some] at hF
      split at hF
      · rename_i F2 i o he
        simp only [Prod.mk.injEq, Option.some.injEq, List.cons.injEq, and_true] at he
        obtain ⟨rfl,-,rfl,rfl⟩ := he
        exact (Option.some.inj hF).symm
      · cases hF
    subst hF'
    refine ⟨hc.opened 2 hring (by simp [setStream, hlog]) ?_ ?_ ?_,hq⟩
    · intro k
      rw [slots_congr (show (setStream (setStream F1 f none .stdio) g none .stdio).FIDT = F1.FIDT
        from rfl), hslots]
      simp
    · intro k hk
      simp only [List.take_succ_cons, List.take_zero, List.mem_cons, List.not_mem_nil, or_false,
        not_or] at hk
      rw [← hFT k (by simpa using hk)]
      simp [setStream, Files.modFCB, hk.1, hk.2]
    · intro k hk
      have h1 := hone k (by simpa using hk)
      by_cases hkg : k = g
      · simpa [setStream, Files.modFCB, hkg, hfg.symm] using hkg ▸ h1
      · obtain rfl : k = f := by simpa [hkg] using hk
        simpa [setStream, Files.modFCB, hkg] using h1

/-- FCB_reserve takes all it is asked for or nothing, and FCB_unreserve undoes it. -/
theorem reserve_all_or_nothing (hr : FreeRing F.heap fl) (p : PcbRef) (num : Nat) :
    ∃ F' r, reserveFCB F p num = some (F',r) ∧
      (r≠none ↔ num ≤ (emptyFids (F.FIDT p)).length ∧ num ≤ fl.length) ∧
      (∀ fids fcbs, r = some (fids,fcbs) →
        fids = (emptyFids (F.FIDT p)).take num ∧ fids.length = num ∧
        fcbs.length = num ∧ fcbs.Nodup ∧ (∀ f∈fcbs, f∈fl ∧ (F'.FT f).refcount = 1) ∧
        (∀ x∈fids.zip fcbs, F'.FIDT p x.1 = some x.2) ∧
        (∀ i, i∉fids → F'.FIDT p i = F.FIDT p i) ∧ (∀ q, q≠p → F'.FIDT q = F.FIDT q) ∧
        (∀ f, f∉fcbs → F'.FT f = F.FT f) ∧
        (∃ fl', FreeRing F'.heap fl' ∧ ∀ f, f∈fl' ↔ f∈fl ∧ f∉fcbs) ∧
        ∃ F'' fl'', unreserveFCB p (fids.zip fcbs) F' = some F'' ∧ F''.FIDT = F.FIDT ∧
          FreeRing F''.heap fl'' ∧ fl''.Perm fl) ∧
      (r = none → F'.FIDT = F.FIDT ∧ ∃ fl', FreeRing F'.heap fl' ∧ fl'.Perm fl) := by
  have hcount : (findFids (F.FIDT p) num 0).length<num ↔ (emptyFids (F.FIDT p)).length<num := by
    rw [findFids_zero, List.length_take]
    omega
  by_cases hfail : (findFids (F.FIDT p) num 0).length<num ∨ fl.length<num
  · obtain ⟨F',fl',hres,hring,hperm,hT,-,-⟩ := reserve_fail hr hfail
    refine ⟨F',none,hres,?_,nofun,fun _ => ⟨hT,fl',hring,hperm⟩⟩
    rw [hcount] at hfail
    exact ⟨fun h => absurd rfl h,fun h => by omega⟩
  · obtain ⟨hfid,hfl⟩ := not_or.mp hfail
    obtain ⟨F',hres,hring,-,hq,hi,hset,-,hFT,hone⟩ := reserve_ok (p := p) hr hfid (by omega)
    rw [hcount] at hfid
    refine ⟨F',_,hres,⟨fun _ => ⟨by omega,by omega⟩,fun _ => Option.some_ne_none _⟩,?_,nofun⟩
    intro fids fcbs he
    rw [findFids_zero] at he hi hset
    obtain ⟨rfl,rfl⟩ : (emptyFids (F.FIDT p)).take num = fids ∧ fl.take num = fcbs := by simpa using he
    have hlen : ((emptyFids (F.FIDT p)).take num).length = num := by
      rw [List.length_take]
      omega
    have hlen' : (fl.take num).length = num := by
      rw [List.length_take]
      omega
    have hsplit : (fl.drop num++fl.take num).Perm fl := by
      conv_rhs => rw [← List.take_append_drop num fl]
      exact List.perm_append_comm
    have hdrop : ∀ f, f∈fl.drop num ↔ f∈fl ∧ f∉fl.take num := by
      intro f
      have hn := (hsplit.nodup_iff.mpr hr.nodup)
      rw [← hsplit.mem_iff, List.mem_append]
      exact ⟨fun h => ⟨.inl h,fun hm => (List.nodup_append.mp hn).2.2 f h f hm rfl⟩,
        fun h => h.1.resolve_right h.2⟩
    have hfst : (((emptyFids (F.FIDT p)).take num).zip (fl.take num)).map Prod.fst =
        (emptyFids (F.FIDT p)).take num := List.map_fst_zip (by omega)
    have hsnd : (((emptyFids (F.FIDT p)).take num).zip (fl.take num)).map Prod.snd = fl.take num :=
      List.map_snd_zip (by omega)
    obtain ⟨F'',hun,hring',hq',hi',-⟩ := unreserve_ok (p := p)
      (((emptyFids (F.FIDT p)).take num).zip (fl.take num)) hring
      (by rw [hfst, ← findFids_zero]; exact findFids_nodup _ _ _)
      (by rw [hsnd]; exact hsplit.nodup_iff.mpr hr.nodup) hset
    rw [hsnd] at hring'
    rw [hfst] at hi'
    refine ⟨rfl,hlen,hlen',(List.take_sublist _ _).nodup hr.nodup,
      fun f hf => ⟨List.mem_of_mem_take hf,hone f hf⟩,hset,hi,hq,hFT,
      ⟨_,hring,hdrop⟩,F'',_,hun,?_,hring',hsplit⟩
    funext q i
    by_cases hqp : q = p
    · subst hqp
      rw [hi' i]
      split
      · rename_i hm
        exact (mem_emptyFids.mp (List.mem_of_mem_take hm)).symm
      · rename_i hm
        exact hi i hm
    · rw [hq' q hqp, hq q hqp]

theorem releaseFCBs_ring {l : List FcbRef} (hn : l.Nodup) :
    FreeRing (l.foldl releaseFCB zeroFiles).heap l ∧
      (l.foldl releaseFCB zeroFiles).FIDT = zeroFiles.FIDT := by
  obtain ⟨h,he,hring⟩ := releaseFCBs_eq (F := zeroFiles) l FreeRing.initial (by simpa using hn)
  rw [he]
  exact ⟨by simpa using hring,rfl⟩

theorem reserve_all_or_nothing_initial : ∃ F' fcbs,
    reserveFCB initializeFiles 0 2 = some (F',some ([0,1],fcbs)) ∧ fcbs.length = 2 ∧
      (∀ f∈fcbs, (F'.FT f).refcount = 1) ∧
      ∃ F'', unreserveFCB 0 ([0,1].zip fcbs) F' = some F'' ∧ F''.FIDT = initializeFiles.FIDT := by
  obtain ⟨hring,hT⟩ := releaseFCBs_ring (List.nodup_finRange MAX_FILES)
  obtain ⟨F',r,hres,hiff,hok,-⟩ := reserve_all_or_nothing hring 0 2
  have hfids : emptyFids (initializeFiles.FIDT 0) = List.finRange MAX_FILEID := by
    rw [initializeFiles, hT]
    exact List.filter_eq_self.mpr fun _ _ => rfl
  have hsome : r≠none := hiff.mpr (by
    rw [← initializeFiles, hfids, List.length_finRange, List.length_finRange]
    exact ⟨by decide,by decide⟩)
  obtain ⟨⟨fids,fcbs⟩,rfl⟩ := Option.ne_none_iff_exists'.mp hsome
  obtain ⟨hfid,-,hlen,-,hone,-,-,-,-,-,F'',-,hun,hT',-⟩ := hok fids fcbs rfl
  have hfid' : fids = [0,1] := hfid.trans (by rw [← initializeFiles, hfids]; rfl)
  subst hfid'
  exact ⟨F',fcbs,hres,hlen,fun f hf => (hone f hf).2,F'',hun,hT'⟩

end Reserve

theorem releaseFCBs_ok {l : List FcbRef} (hn : l.Nodup) (hl : ∀ f, f∈l) :
    FilesOk (l.foldl releaseFCB zeroFiles) fun _ => 0 := by
  obtain ⟨h,he,hring⟩ := releaseFCBs_eq (F := zeroFiles) l FreeRing.initial (by simpa using hn)
  have hzero : ∀ f, refs { zeroFiles with heap := h } (fun _ => 0) f = 0 := by
    intro f
    simp [refs, slots, tally_eq_zero, zeroFiles]
  rw [he]
  refine ⟨l,hring,?_,?_,?_⟩
  · intro f
    simp [hzero f, hl f]
  · intro f hf
    simp [hzero f] at hf
  · intro f hf
    simp [hzero f] at hf

theorem initializeFiles_ok : FilesOk initializeFiles fun _ => 0 :=
  releaseFCBs_ok (List.nodup_finRange _) List.mem_finRange

end TinyOS.Kernel
