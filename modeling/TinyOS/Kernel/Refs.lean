import TinyOS.Kernel.Streams
import TinyOS.Lib.Tally
import Mathlib.Data.List.FinRange

/-! The reference counts of the FCBs: the file table F agrees with the number R f of
references to each FCB f, and its free list fl holds the FCBs without any. -/
namespace TinyOS.Kernel
open RList Tally

structure FreeRing (h : Heap FNode (Option FcbRef)) (fl : List FcbRef) : Prop where
  ring : Represents h (fun _ : Unit => FNode.FCB_freelist) fun _ => fl.map .freelistNode
  key : h.key = fnodeKey

theorem freelistNode_injective : Function.Injective FNode.freelistNode := by
  intro f g h
  cases h
  rfl

namespace FreeRing
variable {h : Heap FNode (Option FcbRef)} {fl : List FcbRef} {f : FcbRef}

theorem nodup (hr : FreeRing h fl) : fl.Nodup := List.Nodup.of_map _ (hr.ring.lists.nodup ())

theorem isEmpty_eq (hr : FreeRing h fl) : isRlistEmpty h .FCB_freelist = decide (fl = []) := by
  have := hr.ring.isRlistEmpty_iff (i := ())
  exact Bool.eq_iff_iff.mpr (this.trans (by simp))

theorem push_back (hr : FreeRing h fl) (hf : f∉fl) :
    FreeRing (rlistPushBack h .FCB_freelist (.freelistNode f)) (fl++[f]) := by
  have hp := hr.ring.rlistPushBack (i := ()) (x := .freelistNode f) (by simp)
    (by simpa [freelistNode_injective.eq_iff] using hf)
  rw [Ring.update_unit] at hp
  exact ⟨by simpa using hp,hr.key⟩

theorem pop_front (hr : FreeRing h (f::fl)) :
    (rlistPopFront h .FCB_freelist).2 = .freelistNode f ∧
      FreeRing (rlistPopFront h .FCB_freelist).1 fl := by
  obtain ⟨hx,hp⟩ := hr.ring.rlistPopFront_cons (i := ()) rfl
  rw [Ring.update_unit] at hp
  exact ⟨hx,hp,hr.key⟩

theorem initial : FreeRing ⟨fnodeKey,id,id⟩ [] :=
  ⟨⟨⟨fun _ => rfl,fun _ => rfl⟩,⟨fun _ => rfl,by simp,by simp,fun _ _ _ => rfl,by simp,
    fun _ _ _ => rfl⟩⟩,rfl⟩

end FreeRing

/-- Counters, streams and free list agree with R. -/
structure Counted (F : Files) (R : FcbRef → Nat) (fl : List FcbRef) : Prop where
  ring : FreeRing F.heap fl
  free : ∀ f, f∈fl ↔ R f = 0
  count : ∀ f, 0<R f → (F.FT f).refcount.toNat = R f
  stream : ∀ f, 0<R f → (F.FT f).streamfunc≠none

/-- What a section that turns the counts R into R' logs: one Close for each FCB that
loses its last reference, one device for each that gets its first. -/
def Emits (R R' : FcbRef → Nat) (es : List StreamEvent) : Prop :=
  ∀ f, es.count (.closed f) = (if 0<R f ∧ R' f = 0 then 1 else 0) ∧
    es.count (.opened f) = (if R f = 0 ∧ 0<R' f then 1 else 0)

theorem Emits.nil {R R' : FcbRef → Nat} (h : ∀ f, 0<R f ↔ 0<R' f) : Emits R R' [] := by
  intro f
  have := h f
  constructor
  · rw [if_neg (by omega)]
    rfl
  · rw [if_neg (by omega)]
    rfl

theorem Emits.append {R R' R'' : FcbRef → Nat} {es es' : List StreamEvent} (h : Emits R R' es)
    (h' : Emits R' R'' es') (hle : ∀ f, R' f≤R f) (hle' : ∀ f, R'' f≤R' f) :
    Emits R R'' (es++es') := by
  intro f
  have := hle f
  have := hle' f
  rw [List.count_append, List.count_append, (h f).1, (h f).2, (h' f).1, (h' f).2]
  constructor
  · split_ifs <;> omega
  · split_ifs <;> omega

namespace Counted
variable {F : Files} {R : FcbRef → Nat} {fl : List FcbRef} {f : FcbRef}

theorem setFid (h : Counted F R fl) (p : PcbRef) (fid : Fid) (o : Option FcbRef) :
    Counted (F.setFid p fid o) R fl := ⟨h.ring,h.free,h.count,h.stream⟩

theorem incref (h : Counted F R fl) (hf : 0<R f) (hb : R f+1<2^32) :
    Counted (incref F f) (Function.update R f (R f+1)) fl := by
  have hother : ∀ g, g≠f → (Kernel.incref F f).FT g = F.FT g := by
    intro g hg
    simp [Kernel.incref, Files.modFCB, hg]
  refine ⟨h.ring,?_,?_,?_⟩
  · intro g
    rw [h.free g]
    by_cases hg : g = f
    · subst hg
      simp
      omega
    · simp [hg]
  · intro g hg
    by_cases hgf : g = f
    · subst hgf
      have := h.count g hf
      simp only [Kernel.incref, Files.modFCB, Function.update_self, UInt32.toNat_add,
        UInt32.toNat_one, this]
      omega
    · rw [hother g hgf]
      simp only [Function.update_of_ne hgf] at hg ⊢
      exact h.count g hg
  · intro g hg
    by_cases hgf : g = f
    · subst hgf
      simpa [Kernel.incref, Files.modFCB] using h.stream g hf
    · rw [hother g hgf]
      simp only [Function.update_of_ne hgf] at hg
      exact h.stream g hg

theorem decref (h : Counted F R fl) (hf : 0<R f) :
    ∃ F' es fl', decref F f = some (F',0) ∧ Counted F' (Function.update R f (R f-1)) fl' ∧
      F'.FIDT = F.FIDT ∧ F'.log = F.log++es ∧ Emits R (Function.update R f (R f-1)) es := by
  have hcount := h.count f hf
  obtain ⟨ops,hops⟩ := Option.ne_none_iff_exists'.mp (h.stream f hf)
  have hsub : ((F.FT f).refcount-1).toNat = R f-1 := by
    have hlt := (F.FT f).refcount.toNat_lt
    simp only [UInt32.toNat_sub, UInt32.toNat_one, hcount] at hlt ⊢
    omega
  have hzero : (F.FT f).refcount-1 = 0 ↔ R f = 1 := by
    rw [← UInt32.toNat_inj, hsub]
    simp
    omega
  set F1 := F.modFCB f fun b => { b with refcount := b.refcount-1 } with hF1
  have hstay : ∀ (F' : Files) (fl' : List FcbRef), F'.FT = F1.FT → FreeRing F'.heap fl' →
      (∀ g, g∈fl' ↔ Function.update R f (R f-1) g = 0) →
      Counted F' (Function.update R f (R f-1)) fl' := by
    intro F' fl' hFT hring hfree
    refine ⟨hring,hfree,?_,?_⟩
    · intro g hg
      by_cases hgf : g = f
      · subst hgf
        simp [hFT, hF1, Files.modFCB, hsub]
      · simp only [Function.update_of_ne hgf] at hg ⊢
        simpa [hFT, hF1, Files.modFCB, hgf] using h.count g hg
    · intro g hg
      by_cases hgf : g = f
      · subst hgf
        simp [hFT, hF1, Files.modFCB, hops]
      · simp only [Function.update_of_ne hgf] at hg
        simpa [hFT, hF1, Files.modFCB, hgf] using h.stream g hg
  have hF1z : (F1.FT f).refcount = 0 ↔ R f = 1 := by
    simpa [hF1, Files.modFCB] using hzero
  have hF1s : (F1.FT f).streamfunc = some ops := by
    simpa [hF1, Files.modFCB] using hops
  by_cases hone : R f = 1
  · have hnf : f∉fl := fun hm => by simp [(h.free f).mp hm] at hf
    refine ⟨releaseFCB { F1 with log := F1.log++[.closed f] } f,[.closed f],fl++[f],?_,
      hstay _ _ rfl (h.ring.push_back hnf) ?_,rfl,rfl,?_⟩
    · have hclose : ops.close = 0 := by cases ops <;> rfl
      simp only [Kernel.decref, ← hF1, hF1z.mpr hone, if_true, hF1s, Option.map_some, hclose]
    · intro g
      by_cases hg : g = f
      · simp [hg, hone]
      · simp [hg, h.free]
    · intro g
      by_cases hg : g = f
      · simp [hg, hone]
      · have hgf : ¬f = g := fun he => hg he.symm
        by_cases hz : R g = 0 <;> simp [hg, hgf, hz]
  · refine ⟨F1,[],fl,?_,hstay _ _ rfl h.ring ?_,rfl,by simp [hF1, Files.modFCB],?_⟩
    · simp only [Kernel.decref, ← hF1, hF1z, hone, if_false]
    · intro g
      rw [h.free g]
      by_cases hg : g = f
      · subst hg
        simp
        omega
      · simp [hg]
    · refine Emits.nil fun g => ?_
      by_cases hg : g = f
      · subst hg
        simp
        omega
      · simp [hg]

end Counted
noncomputable def slots (F : Files) (f : FcbRef) :
  Nat := tally (fun x : PcbRef × Fid => F.FIDT x.1 x.2) f

/-- The references to f: its slots and the calls in flight on it. -/
noncomputable def refs (F : Files) (inflight : FcbRef → Nat) (f : FcbRef) :
  Nat := slots F f+inflight f

section Slots
variable {F F' : Files} {n : FcbRef → Nat} {p : PcbRef} {fid : Fid} {f : FcbRef}

theorem slots_congr (h : F'.FIDT = F.FIDT) (f : FcbRef) : slots F' f = slots F f := by
  simp [slots, h]

theorem refs_congr (h : F'.FIDT = F.FIDT) : refs F' n = refs F n := by
  funext g
  simp [refs, slots, h]

theorem slots_setFid (F : Files) (p : PcbRef) (fid : Fid) (o : Option FcbRef) (f : FcbRef) :
    slots (F.setFid p fid o) f+(if F.FIDT p fid = some f then 1 else 0) =
      slots F f+(if o = some f then 1 else 0) := by
  have he : (fun x : PcbRef × Fid => (F.setFid p fid o).FIDT x.1 x.2) =
      Function.update (fun x : PcbRef × Fid => F.FIDT x.1 x.2) (p,fid) o := by
    funext ⟨q,i⟩
    by_cases hq : q = p
    · subst hq
      by_cases hi : i = fid
      · subst hi
        simp [Files.setFid]
      · simp [Files.setFid, hi]
    · simp [Files.setFid, hq]
  rw [slots, he]
  exact tally_update (fun x : PcbRef × Fid => F.FIDT x.1 x.2) (p,fid) o f

theorem refs_clear (h : F.FIDT p fid = some f) :
    refs (F.setFid p fid none) n = Function.update (refs F n) f (refs F n f-1) := by
  funext g
  have hs := slots_setFid F p fid none g
  by_cases hg : g = f
  · subst hg
    simp [h, refs] at hs ⊢
    omega
  · have hgf : ¬f = g := fun he => hg he.symm
    simp [h, hg, hgf, refs] at hs ⊢
    exact hs

theorem refs_fill (h : F.FIDT p fid = none) :
    refs (F.setFid p fid (some f)) n = Function.update (refs F n) f (refs F n f+1) := by
  funext g
  have hs := slots_setFid F p fid (some f) g
  by_cases hg : g = f
  · subst hg
    simp [h, refs] at hs ⊢
    omega
  · have hgf : ¬f = g := fun he => hg he.symm
    simp [h, hg, hgf, refs] at hs ⊢
    exact hs

theorem refs_pos (h : F.FIDT p fid = some f) : 0<refs F n f := by
  have := tally_pos (g := fun x : PcbRef × Fid => F.FIDT x.1 x.2) (x := (p,fid)) h
  unfold refs slots
  omega

/-- Slots and processes together are too few for the counter to wrap. -/
theorem refs_lt (hn : ∀ f, n f≤MAX_PROC) (f : FcbRef) : refs F n f+1<2^32 := by
  have hs : slots F f≤Fintype.card (PcbRef × Fid) := tally_le_card _ _
  have := hn f
  simp only [Fintype.card_prod, Fintype.card_fin, MAX_PROC, MAX_FILEID] at hs this
  unfold refs
  omega

end Slots

def FilesOk (F : Files) (n : FcbRef → Nat) : Prop := ∃ fl, Counted F (refs F n) fl

structure FilesStep (F : Files) (n : FcbRef → Nat) (F' : Files) (n' : FcbRef → Nat) : Prop where
  ok : FilesOk F' n'
  emits : ∃ es, F'.log = F.log++es ∧ Emits (refs F n) (refs F' n') es

theorem FilesStep.same {F : Files} {n : FcbRef → Nat} (h : FilesOk F n) : FilesStep F n F n :=
  ⟨h,[],by simp,Emits.nil fun _ => Iff.rfl⟩

section Sections
variable {F : Files} {n : FcbRef → Nat} {p : PcbRef} {fid : Fid} {f : FcbRef}

theorem FilesOk.close (h : FilesOk F n) (hf : F.FIDT p fid = some f) :
    ∃ F', decref (F.setFid p fid none) f = some (F',0) ∧ FilesStep F n F' n ∧
      F'.FIDT = (F.setFid p fid none).FIDT := by
  obtain ⟨fl,hc⟩ := h
  obtain ⟨F',es,fl',hdec,hc',hT,hlog,hem⟩ := (hc.setFid p fid none).decref (refs_pos hf)
  have hrefs : refs F' n = Function.update (refs F n) f (refs F n f-1) := by
    rw [refs_congr hT, refs_clear hf]
  refine ⟨F',hdec,⟨⟨fl',?_⟩,es,hlog,?_⟩,hT⟩
  · rw [hrefs]
    exact hc'
  · rw [hrefs]
    exact hem

theorem FilesOk.closeFid (h : FilesOk F n) (p : PcbRef) (fid : Fid) :
    ∃ F', closeFid p F fid = some F' ∧ FilesStep F n F' n ∧
      F'.FIDT = (F.setFid p fid none).FIDT := by
  cases hf : F.FIDT p fid with
  | none =>
    refine ⟨F,by simp [Kernel.closeFid, hf],.same h,?_⟩
    simp only [Files.setFid]
    rw [← hf, Function.update_eq_self, Function.update_eq_self]
  | some f =>
    obtain ⟨fl,hc⟩ := h
    obtain ⟨F',es,fl',hdec,hc',hT,hlog,hem⟩ := hc.decref (refs_pos hf)
    have hrefs : refs (F'.setFid p fid none) n = Function.update (refs F n) f (refs F n f-1) := by
      rw [refs_clear (hT ▸ hf), refs_congr hT]
    refine ⟨F'.setFid p fid none,by simp [Kernel.closeFid, hf, hdec],⟨⟨fl',?_⟩,es,hlog,?_⟩,?_⟩
    · rw [hrefs]
      exact hc'.setFid p fid none
    · rw [hrefs]
      exact hem
    · simp [Files.setFid, hT]

theorem Emits.congr {R R' S S' : FcbRef → Nat} {es : List StreamEvent} (h : Emits R R' es)
    (h1 : ∀ f, 0<R f ↔ 0<S f) (h2 : ∀ f, 0<R' f ↔ 0<S' f) : Emits S S' es := by
  intro f
  have e1 : R f = 0 ↔ S f = 0 := by have := h1 f; omega
  have e2 : R' f = 0 ↔ S' f = 0 := by have := h2 f; omega
  simpa only [h1 f, h2 f, e1, e2] using h f

theorem update_succ_pos {R : FcbRef → Nat} (hf : 0<R f) (g : FcbRef) :
    0<R g ↔ 0<Function.update R f (R f+1) g := by
  by_cases hg : g = f
  · subst hg
    simp [hf]
  · simp [hg]

theorem slots_clear_le (F : Files) (p : PcbRef) (fid : Fid) (g : FcbRef) :
    slots (F.setFid p fid none) g ≤ slots F g := by
  have := slots_setFid F p fid none g
  simp at this
  omega

theorem FilesOk.closeFids (l : List Fid) (h : FilesOk F n) :
    ∃ F', l.foldlM (Kernel.closeFid p) F = some F' ∧ FilesStep F n F' n ∧
      (∀ g, refs F' n g≤refs F n g) ∧ (∀ q, q≠p → F'.FIDT q = F.FIDT q) ∧
      ∀ i, F'.FIDT p i = if i∈l then none else F.FIDT p i := by
  induction l generalizing F with
  | nil => exact ⟨F,rfl,.same h,fun _ => Nat.le_refl _,fun _ _ => rfl,by simp⟩
  | cons fid l ih =>
    obtain ⟨F1,hF1,⟨hok,es1,hlog1,hem1⟩,hT1⟩ := h.closeFid p fid
    obtain ⟨F',hF',⟨hok',es',hlog',hem'⟩,hle',hq',hp'⟩ := ih hok
    have hle1 : ∀ g, refs F1 n g≤refs F n g := by
      intro g
      rw [refs_congr hT1]
      have := slots_clear_le F p fid g
      unfold refs
      omega
    refine ⟨F',by simp [hF1, hF'],⟨hok',es1++es',?_,hem1.append hem' hle1 hle'⟩,?_,?_,?_⟩
    · rw [hlog', hlog1, List.append_assoc]
    · exact fun g => (hle' g).trans (hle1 g)
    · intro q hq
      rw [hq' q hq, hT1]
      simp [Files.setFid, hq]
    · intro i
      rw [hp' i, hT1]
      by_cases hi : i = fid
      · subst hi
        simp [Files.setFid]
      · simp [Files.setFid, hi]

theorem FilesOk.closeFIDT (h : FilesOk F n) (p : PcbRef) :
    ∃ F', closeFIDT F p = some F' ∧ FilesStep F n F' n ∧
      (∀ q, q≠p → F'.FIDT q = F.FIDT q) ∧ ∀ i, F'.FIDT p i = none := by
  obtain ⟨F',hF',hstep,-,hq,hp⟩ := h.closeFids (p := p) (List.finRange MAX_FILEID)
  exact ⟨F',hF',hstep,hq,fun i => by rw [hp, if_pos (List.mem_finRange i)]⟩

theorem FilesOk.inheritFids {c : PcbRef} (hcp : c≠p) (hn : ∀ f, n f≤MAX_PROC) (l : List Fid)
    (hl : l.Nodup) (h : FilesOk F n) (hnone : ∀ i∈l, F.FIDT p i = none) :
    ∃ F', l.foldl (inheritFid c p) F = F' ∧ FilesOk F' n ∧ F'.log = F.log ∧
      (∀ g, 0<refs F n g ↔ 0<refs F' n g) ∧ (∀ q, q≠p → F'.FIDT q = F.FIDT q) ∧
      ∀ i, F'.FIDT p i = if i∈l then F.FIDT c i else F.FIDT p i := by
  induction l generalizing F with
  | nil => exact ⟨F,rfl,h,rfl,fun _ => Iff.rfl,fun _ _ => rfl,by simp⟩
  | cons fid l ih =>
    rw [List.nodup_cons] at hl
    have hfid := hnone fid (by simp)
    have hstep : ∃ F1, inheritFid c p F fid = F1 ∧ FilesOk F1 n ∧ F1.log = F.log ∧
        (∀ g, 0<refs F n g ↔ 0<refs F1 n g) ∧
        F1.FIDT = (F.setFid p fid (F.FIDT c fid)).FIDT := by
      cases hf : F.FIDT c fid with
      | none =>
        refine ⟨_,rfl,?_⟩
        have he : F.setFid p fid none = F := by
          simp only [Files.setFid]
          rw [← hfid, Function.update_eq_self, Function.update_eq_self]
        simp [inheritFid, hf, he, h]
      | some f =>
        obtain ⟨fl,hc⟩ := h
        have hpos : 0<refs F n f := refs_pos hf
        have hc1 := (hc.setFid p fid (some f)).incref hpos (refs_lt hn f)
        have hrefs : refs (incref (F.setFid p fid (some f)) f) n =
            Function.update (refs F n) f (refs F n f+1) := refs_fill hfid
        refine ⟨incref (F.setFid p fid (some f)) f,by simp [inheritFid, hf],⟨fl,?_⟩,rfl,?_,rfl⟩
        · rw [hrefs]
          exact hc1
        · rw [hrefs]
          exact update_succ_pos hpos
    obtain ⟨F1,hF1,hok1,hlog1,hpos1,hT1⟩ := hstep
    have hc1 : F1.FIDT c = F.FIDT c := by
      rw [hT1]
      simp [Files.setFid, hcp]
    obtain ⟨F',hF',hok',hlog',hpos',hq',hp'⟩ := ih hl.2 hok1 (by
      intro i hi
      have hne : i≠fid := fun he => hl.1 (he ▸ hi)
      rw [hT1]
      simpa [Files.setFid, hne] using hnone i (by simp [hi]))
    refine ⟨F',by rw [List.foldl_cons, hF1, hF'],hok',by rw [hlog', hlog1],
      fun g => (hpos1 g).trans (hpos' g),?_,?_⟩
    · intro q hq
      rw [hq' q hq, hT1]
      simp [Files.setFid, hq]
    · intro i
      rw [hp' i, hc1, hT1]
      by_cases hi : i = fid
      · subst hi
        simp [Files.setFid, hl.1]
      · simp [Files.setFid, hi]

theorem FilesOk.inheritFIDT {c : PcbRef} (h : FilesOk F n) (hcp : c≠p) (hn : ∀ f, n f≤MAX_PROC)
    (hnone : ∀ i, F.FIDT p i = none) :
    FilesStep F n (inheritFIDT F c p) n ∧ (∀ q, q≠p → (inheritFIDT F c p).FIDT q = F.FIDT q) ∧
      ∀ i, (inheritFIDT F c p).FIDT p i = F.FIDT c i := by
  obtain ⟨F',hF',hok,hlog,hpos,hq,hp⟩ := h.inheritFids hcp hn (List.finRange MAX_FILEID)
    (List.nodup_finRange _) fun i _ => hnone i
  rw [Kernel.inheritFIDT, hF']
  exact ⟨⟨hok,[],by simp [hlog],Emits.nil hpos⟩,hq,
    fun i => by rw [hp, if_pos (List.mem_finRange i)]⟩

theorem refs_inflight (F : Files) (n : FcbRef → Nat) (f : FcbRef) :
    refs F (Function.update n f (n f+1)) = Function.update (refs F n) f (refs F n f+1) := by
  funext g
  by_cases hg : g = f
  · subst hg
    simp [refs, Nat.add_assoc]
  · simp [refs, hg]

theorem FilesOk.hold (h : FilesOk F n) (hn : ∀ f, n f≤MAX_PROC) (hf : 0<refs F n f) :
    FilesStep F n (incref F f) (Function.update n f (n f+1)) := by
  obtain ⟨fl,hc⟩ := h
  have hrefs : refs (incref F f) (Function.update n f (n f+1)) =
      Function.update (refs F n) f (refs F n f+1) := refs_inflight F n f
  refine ⟨⟨fl,?_⟩,[],by simp [incref, Files.modFCB],?_⟩
  · rw [hrefs]
    exact hc.incref hf (refs_lt hn f)
  · rw [hrefs]
    exact Emits.nil (update_succ_pos hf)

theorem FilesOk.drop (h : FilesOk F (Function.update n f (n f+1))) :
    ∃ F', decref F f = some (F',0) ∧ FilesStep F (Function.update n f (n f+1)) F' n ∧
      F'.FIDT = F.FIDT := by
  obtain ⟨fl,hc⟩ := h
  have hpos : 0<refs F (Function.update n f (n f+1)) f := by
    rw [refs_inflight, Function.update_self]
    omega
  obtain ⟨F',es,fl',hdec,hc',hT,hlog,hem⟩ := hc.decref hpos
  have hrefs : Function.update (refs F (Function.update n f (n f+1))) f
      (refs F (Function.update n f (n f+1)) f-1) = refs F' n := by
    rw [refs_congr hT, refs_inflight, Function.update_self, Nat.add_sub_cancel,
      Function.update_idem, Function.update_eq_self]
  refine ⟨F',hdec,⟨⟨fl',?_⟩,es,hlog,?_⟩,hT⟩
  · rw [← hrefs]
    exact hc'
  · rw [← hrefs]
    exact hem

theorem FilesOk.hold_drop (h : FilesOk F n) (hn : ∀ f, n f≤MAX_PROC) (hf : 0<refs F n f) :
    ∃ F', decref (incref F f) f = some (F',0) ∧ FilesStep F n F' n ∧ F'.FIDT = F.FIDT := by
  obtain ⟨hok,es,hlog,-⟩ := h.hold hn hf
  have hes : es = [] := by simpa [incref, Files.modFCB] using hlog
  obtain ⟨F',hdec,⟨hok',es',hlog',hem'⟩,hT⟩ := hok.drop
  refine ⟨F',hdec,⟨hok',es',hlog',?_⟩,hT⟩
  refine hem'.congr (fun g => ?_) fun _ => Iff.rfl
  rw [refs_inflight]
  exact (update_succ_pos hf g).symm

structure OwnStep (F : Files) (n : FcbRef → Nat) (p : PcbRef) (F' : Files) : Prop extends
    FilesStep F n F' n where
  own : ∀ q, q≠p → F'.FIDT q = F.FIDT q

theorem getFcb_some {fd : Int} (h : getFcb F p fd = some f) :
    ∃ fid : Fid, F.FIDT p fid = some f ∧ ∀ o, setFcb F p fd o = F.setFid p fid o := by
  unfold getFcb at h
  split at h
  · rename_i hr
    exact ⟨_,h,fun o => by rw [setFcb, dif_pos hr]⟩
  · cases h

theorem FilesOk.sysClose (h : FilesOk F n) (p : PcbRef) (fd : Int) :
    ∃ r, sysClose F p fd = some r ∧ OwnStep F n p r.1 := by
  unfold Kernel.sysClose
  cases hg : getFcb F p fd with
  | none => exact ⟨_,rfl,.same h,fun _ _ => rfl⟩
  | some f =>
    obtain ⟨fid,hf,hset⟩ := getFcb_some hg
    obtain ⟨F',hdec,hstep,hT⟩ := h.close hf
    refine ⟨(F',0),by simp [hset, hdec],hstep,fun q hq => ?_⟩
    rw [hT]
    simp [Files.setFid, hq]

theorem FilesOk.sysWrite (h : FilesOk F n) (hn : ∀ f, n f≤MAX_PROC) (p : PcbRef) (fd : Int)
    (size fuel out : Nat) (accept : Nat → Bool) {r : Files × Int}
    (hr : sysWrite F p fd size fuel out accept = some r) : OwnStep F n p r.1 := by
  unfold Kernel.sysWrite at hr
  cases hg : getFcb F p fd with
  | none =>
    rw [hg] at hr
    cases hr
    exact ⟨.same h,fun _ _ => rfl⟩
  | some f =>
    obtain ⟨fid,hf,-⟩ := getFcb_some hg
    obtain ⟨F',hdec,hstep,hT⟩ := h.hold_drop hn (refs_pos hf)
    simp only [hg, hdec, Option.map_some, Option.bind_eq_some_iff, Option.some.injEq] at hr
    obtain ⟨ops,-,count,-,rfl⟩ := hr
    exact ⟨hstep,fun q _ => by rw [hT]⟩

theorem FilesOk.dup (fid : Fid) {old : FcbRef} (h : FilesOk F n) (hn : ∀ f, n f≤MAX_PROC)
    (hold : 0<refs F n old) (hne : F.FIDT p fid≠some old) :
    ∃ F', decrefOld F (F.FIDT p fid) = some F' ∧
      OwnStep F n p ((incref F' old).setFid p fid (some old)) := by
  cases hf : F.FIDT p fid with
  | none =>
    obtain ⟨fl,hc⟩ := h
    have hrefs : refs ((incref F old).setFid p fid (some old)) n =
        Function.update (refs F n) old (refs F n old+1) := refs_fill hf
    refine ⟨F,rfl,⟨⟨fl,?_⟩,[],by simp [incref, Files.modFCB, Files.setFid],?_⟩,fun q hq => ?_⟩
    · rw [hrefs]
      exact (hc.incref hold (refs_lt hn old)).setFid p fid (some old)
    · rw [hrefs]
      exact Emits.nil (update_succ_pos hold)
    · simp [Files.setFid, incref, Files.modFCB, hq]
  | some f =>
    have hof : old≠f := fun he => hne (he ▸ hf)
    obtain ⟨fl,hc⟩ := h
    obtain ⟨F',es,fl',hdec,hc',hT,hlog,hem⟩ := hc.decref (refs_pos hf)
    set R1 := Function.update (refs F n) f (refs F n f-1) with hR1
    have hold1 : R1 old = refs F n old := by simp [hR1, hof]
    have hc2 := hc'.incref (f := old) (by rw [hold1]; exact hold)
      (by rw [hold1]; exact refs_lt hn old)
    have hrefs : refs ((incref F' old).setFid p fid (some old)) n =
        Function.update R1 old (R1 old+1) := by
      have hclear : (incref F' old).setFid p fid (some old) =
          ((incref F' old).setFid p fid none).setFid p fid (some old) := by
        simp [Files.setFid]
      have hTinc : (incref F' old).FIDT p fid = some f := by
        rw [show (incref F' old).FIDT = F'.FIDT from rfl, hT]
        exact hf
      rw [hclear, refs_fill (by simp [Files.setFid]), refs_clear hTinc,
        refs_congr (show (incref F' old).FIDT = F.FIDT from hT)]
    refine ⟨F',by simp [decrefOld, hdec],⟨⟨fl',?_⟩,es,?_,?_⟩,fun q hq => ?_⟩
    · rw [hrefs]
      exact hc2.setFid p fid (some old)
    · simpa [incref, Files.modFCB, Files.setFid] using hlog
    · rw [hrefs]
      exact hem.congr (fun _ => Iff.rfl) (update_succ_pos (by rw [hold1]; exact hold))
    · simp [Files.setFid, incref, Files.modFCB, hq, hT]

theorem getFcb_of_range (F : Files) (p : PcbRef) {fd : Int} (hr : 0≤fd ∧ fd<MAX_FILEID) :
    ∃ fid : Fid, getFcb F p fd = F.FIDT p fid ∧
      ∀ (F' : Files) (o : Option FcbRef), setFcb F' p fd o = F'.setFid p fid o :=
  ⟨_,by rw [getFcb, dif_pos hr],fun F' o => by rw [setFcb, dif_pos hr]⟩

theorem FilesOk.sysDup2 (h : FilesOk F n) (hn : ∀ f, n f≤MAX_PROC) (p : PcbRef)
    (oldfd newfd : Int) : ∃ r, sysDup2 F p oldfd newfd = some r ∧ OwnStep F n p r.1 := by
  unfold Kernel.sysDup2
  split
  · exact ⟨_,rfl,.same h,fun _ _ => rfl⟩
  · rename_i hr
    simp only [not_or, not_lt, ge_iff_le, not_le] at hr
    obtain ⟨fid,hget,hset⟩ := getFcb_of_range F p ⟨hr.2.1,hr.2.2.2⟩
    cases hold : getFcb F p oldfd with
    | none => exact ⟨_,rfl,.same h,fun _ _ => rfl⟩
    | some old =>
      by_cases hne : some old≠getFcb F p newfd
      · obtain ⟨_,hslot,-⟩ := getFcb_some hold
        obtain ⟨F',hF',hstep⟩ := h.dup fid hn (refs_pos hslot)
          (fun he => hne (hget.trans he).symm)
        refine ⟨((incref F' old).setFid p fid (some old),0),?_,hstep⟩
        rw [hget] at hne ⊢
        simp only [if_pos hne, hF', Option.map_some, hset]
      · exact ⟨(F,0),by simp [not_not.mp hne],.same h,fun _ _ => rfl⟩

end Sections
end TinyOS.Kernel
