import Mathlib.Logic.Equiv.Basic
import Mathlib.Data.List.Nodup

/-! Rings of a successor function. Splicing at two points composes the successor
with their transposition: two rings become one, or one ring becomes two.
Lists with sentinels are rings read from the sentinel on. -/
namespace Ring
variable {ν ι : Type*}

/-- Each point of the list leads to the next one, and the last one leads to c. -/
def Path (f : ν → ν) : List ν → ν → Prop
  | [], _ => True
  | [a], c => f a = c
  | a::b::l, c => f a = b ∧ Path f (b::l) c

theorem path_append (f : ν → ν) (us vs : List ν) (b c : ν) :
    Path f (us++b::vs) c ↔ Path f us b ∧ Path f (b::vs) c := by
  induction us with
  | nil => simp [Path]
  | cons a us ih =>
    cases us with
    | nil => rfl
    | cons x us =>
      simp only [List.cons_append, Path] at ih ⊢
      rw [ih, and_assoc]

theorem path_cons (f : ν → ν) (a c : ν) (l : List ν) :
    Path f (a::l) c ↔ f a = (l++[c]).head (by simp) ∧ Path f l c := by
  cases l with
  | nil => simp [Path]
  | cons b l => rfl

theorem path_congr_head {f g : ν → ν} {a b c : ν} {l : List ν} (ha : g b = f a)
    (hl : ∀ x∈l, g x = f x) : Path g (b::l) c ↔ Path f (a::l) c := by
  induction l generalizing a b with
  | nil => simp [Path, ha]
  | cons x l ih =>
    have ht : ∀ y∈l, g y = f y := fun y hy => hl y (List.mem_cons_of_mem x hy)
    simp only [Path, ha, ih (hl x (by simp)) ht]

theorem path_congr {f g : ν → ν} {c : ν} {l : List ν} (hl : ∀ x∈l, g x = f x) :
    Path g l c ↔ Path f l c := by
  cases l with
  | nil => rfl
  | cons a l => exact path_congr_head (hl a (by simp)) fun x hx => hl x (List.mem_cons_of_mem a hx)

theorem path_getLast {f : ν → ν} {l : List ν} {c : ν} (h : Path f l c) (hl : l≠[]) :
    f (l.getLast hl) = c := by
  rw [← List.dropLast_append_getLast hl, path_append] at h
  exact h.2

section Splice
variable [DecidableEq ν]

def splice (f : ν → ν) (a b : ν) : ν → ν := f ∘ Equiv.swap a b

@[simp] theorem splice_left (f : ν → ν) (a b : ν) : splice f a b a = f b := by simp [splice]

@[simp] theorem splice_right (f : ν → ν) (a b : ν) : splice f a b b = f a := by simp [splice]

theorem splice_other (f : ν → ν) {a b x : ν} (ha : x≠a) (hb : x≠b) :
    splice f a b x = f x := by
  simp [splice, Equiv.swap_apply_of_ne_of_ne ha hb]

theorem splice_comm (f : ν → ν) (a b : ν) : splice f a b = splice f b a := by
  simp [splice, Equiv.swap_comm]

@[simp] theorem splice_self (f : ν → ν) (a : ν) : splice f a a = f := by simp [splice]

@[simp] theorem splice_splice (f : ν → ν) (a b : ν) : splice (splice f a b) a b = f := by
  funext x
  simp [splice]

theorem path_splice_other (f : ν → ν) {a b c : ν} {l : List ν} (ha : a∉l) (hb : b∉l) :
    Path (splice f a b) l c ↔ Path f l c :=
  path_congr fun _ hx => splice_other f (fun he => ha (he ▸ hx)) (fun he => hb (he ▸ hx))

theorem path_splice_left (f : ν → ν) {a b c : ν} {l : List ν} (ha : a∉l) (hb : b∉l) :
    Path (splice f a b) (a::l) c ↔ Path f (b::l) c :=
  path_congr_head (splice_left f a b) fun _ hx =>
    splice_other f (fun he => ha (he ▸ hx)) (fun he => hb (he ▸ hx))

theorem path_splice_right (f : ν → ν) {a b c : ν} {l : List ν} (ha : a∉l) (hb : b∉l) :
    Path (splice f a b) (b::l) c ↔ Path f (a::l) c := by
  rw [splice_comm]
  exact path_splice_left f hb ha

theorem path_insert (f : ν → ν) {c p x : ν} {us vs : List ν} (h : Path f (us++p::vs) c)
    (hx : f x = x) (hn : (us++p::x::vs).Nodup) : Path (splice f p x) (us++p::x::vs) c := by
  obtain ⟨h1,h2⟩ := (path_append f us vs p c).mp h
  simp only [List.nodup_append, List.nodup_cons, List.mem_cons, not_or] at hn
  obtain ⟨-,⟨⟨hpx,hpv⟩,hxv,-⟩,hd⟩ := hn
  have hpu : p∉us := fun hm => hd p hm p (Or.inl rfl) rfl
  have hxu : x∉us := fun hm => hd x hm x (Or.inr (Or.inl rfl)) rfl
  rw [path_append]
  refine ⟨(path_splice_other f hpu hxu).mpr h1,?_,(path_splice_right f hpv hxv).mpr h2⟩
  rw [splice_left, hx]

theorem path_remove (f : ν → ν) (us vs : List ν) {c p x : ν}
    (h : Path f (us++p::x::vs) c) (hn : (us++p::x::vs).Nodup) :
    Path (splice f x p) (us++p::vs) c ∧ splice f x p x = x := by
  obtain ⟨h1,h2,h3⟩ := (path_append f us (x::vs) p c).mp h
  simp only [List.nodup_append, List.nodup_cons, List.mem_cons, not_or] at hn
  obtain ⟨-,⟨⟨hpx,hpv⟩,hxv,-⟩,hd⟩ := hn
  have hpu : p∉us := fun hm => hd p hm p (Or.inl rfl) rfl
  have hxu : x∉us := fun hm => hd x hm x (Or.inr (Or.inl rfl)) rfl
  refine ⟨?_,by rw [splice_left, h2]⟩
  rw [path_append]
  exact ⟨(path_splice_other f hxu hpu).mpr h1,(path_splice_right f hxv hpv).mpr h3⟩

theorem path_join (f : ν → ν) {b c p : ν} {us ys : List ν} (h : Path f (us++[p]) c)
    (hb : Path f (b::ys) b) (hn : (us++p::(ys++[b])).Nodup) :
    Path (splice f p b) (us++p::(ys++[b])) c := by
  obtain ⟨h1,h2⟩ := (path_append f us [] p c).mp h
  simp only [List.nodup_append, List.nodup_cons, List.mem_append, List.mem_cons,
    List.not_mem_nil, not_or, or_false] at hn
  obtain ⟨-,⟨⟨hpy,hpb⟩,-,-,hyb⟩,hd⟩ := hn
  have hpu : p∉us := fun hm => hd p hm p (Or.inl rfl) rfl
  have hbu : b∉us := fun hm => hd b hm b (Or.inr (Or.inr rfl)) rfl
  have hby : b∉ys := fun hm => hyb b hm b rfl rfl
  have h3 : Path (splice f p b) (p::(ys++[b])) c := by
    rw [← List.cons_append, path_append]
    exact ⟨(path_splice_left f hpy hby).mpr hb,by simpa [Path] using h2⟩
  rw [path_append]
  exact ⟨(path_splice_other f hpu hbu).mpr h1,h3⟩

end Splice

/-- The ring [a, x...], read from the point a on. -/
structure RingOf (f : ν → ν) (a : ν) (x : List ν) : Prop where
  nodup : (a::x).Nodup
  path : Path f (a::x) a

theorem path_end_mem {f : ν → ν} {a c : ν} {l s : List ν} (hs : ∀ z∈s, f z∈s) (h : Path f (a::l) c)
    (ha : a∈s) : c∈s := by
  induction l generalizing a with
  | nil => exact h ▸ hs a ha
  | cons b l ih => exact ih h.2 (h.1 ▸ hs a ha)

namespace RingOf
variable {f : ν → ν} {a b c : ν} {x y : List ν}

theorem next_mem (h : RingOf f a x) (hc : c∈a::x) : f c∈a::x := by
  obtain ⟨us,vs,hs⟩ := List.mem_iff_append.mp hc
  have hp := h.path
  rw [hs, path_append] at hp
  cases vs with
  | nil =>
    have hfc : f c = a := hp.2
    simp [hfc]
  | cons d vs =>
    rw [hs, hp.2.1]
    simp

theorem exists_prev (h : RingOf f a x) (hc : c∈a::x) : ∃ b∈a::x, f b = c := by
  obtain ⟨us,vs,hs⟩ := List.mem_iff_append.mp hc
  have hp := h.path
  cases us with
  | nil =>
    obtain ⟨rfl,-⟩ := List.cons.inj hs
    exact ⟨_,List.getLast_mem (by simp),path_getLast hp (by simp)⟩
  | cons d us =>
    rw [hs, path_append] at hp
    refine ⟨(d::us).getLast (by simp),?_,path_getLast hp.1 (by simp)⟩
    rw [hs]
    exact List.mem_append_left _ (List.getLast_mem _)

theorem mem_of_common (hx : RingOf f a x) (hy : RingOf f b y) (hcx : c∈a::x) (hcy : c∈b::y) :
    b∈a::x := by
  obtain ⟨us,vs,hs⟩ := List.mem_iff_append.mp hcy
  have hp := hy.path
  rw [hs, path_append] at hp
  exact path_end_mem (fun _ => hx.next_mem) hp.2 hcx

theorem disjoint (hx : RingOf f a x) (hy : RingOf f b y) (hb : b∉a::x) :
    ∀ c∈a::x, c∉b::y :=
  fun _ hcx hcy => hb (hx.mem_of_common hy hcx hcy)

variable [DecidableEq ν]

/-- [a, x...] and [b, y...] become [a, y..., b, x...]. -/
theorem join (hx : RingOf f a x) (hy : RingOf f b y) (hb : b∉a::x) :
    RingOf (splice f a b) a (y++b::x) := by
  have hd := hx.disjoint hy hb
  have hax : a∉x := (List.nodup_cons.mp hx.nodup).1
  have hby : b∉y := (List.nodup_cons.mp hy.nodup).1
  have hay : a∉y := fun hm => hd a (by simp) (by simp [hm])
  have hbx : b∉x := fun hm => hb (by simp [hm])
  constructor
  · have hn : (a::x++b::y).Nodup := hx.nodup.append hy.nodup fun c hc hc' => hd c hc hc'
    refine List.Perm.nodup ?_ hn
    refine .cons a ?_
    calc
      (x++b::y).Perm (b::(x++y)) := List.perm_middle
      List.Perm _ (b::(y++x)) := .cons b List.perm_append_comm
      List.Perm _ (y++b::x) := List.perm_middle.symm
  · rw [← List.cons_append, path_append]
    exact ⟨(path_splice_left f hay hby).mpr hy.path,(path_splice_right f hax hbx).mpr hx.path⟩

/-- [a, x..., b, y...] becomes [a, y...] and [b, x...]. -/
theorem split (h : RingOf f a (x++b::y)) :
    RingOf (splice f a b) a y ∧ RingOf (splice f a b) b x := by
  have hn := h.nodup
  have hp := h.path
  rw [← List.cons_append] at hn hp
  simp only [List.cons_append, List.nodup_cons, List.nodup_append, List.mem_append, List.mem_cons,
    not_or] at hn
  obtain ⟨⟨hax,hab,hay⟩,hxn,⟨hby,hyn⟩,hd⟩ := hn
  have hbx : b∉x := fun hm => hd b hm b (.inl rfl) rfl
  rw [path_append] at hp
  refine ⟨⟨List.nodup_cons.mpr ⟨hay,hyn⟩,?_⟩,⟨List.nodup_cons.mpr ⟨hbx,hxn⟩,?_⟩⟩
  · exact (path_splice_left f hay hby).mpr hp.2
  · exact (path_splice_right f hax hbx).mpr hp.1

theorem other (h : RingOf f c x) (ha : a∉c::x) (hb : b∉c::x) : RingOf (splice f a b) c x :=
  ⟨h.nodup,(path_splice_other f ha hb).mpr h.path⟩

omit [DecidableEq ν] in
theorem single_iff : RingOf f a [] ↔ f a = a :=
  ⟨fun h => h.path,fun h => ⟨List.nodup_singleton a,h⟩⟩

omit [DecidableEq ν] in
theorem rotate (h : RingOf f a (x++b::y)) : RingOf f b (y++a::x) := by
  have hn := h.nodup
  have hp := h.path
  rw [← List.cons_append] at hn hp
  refine ⟨?_,?_⟩
  · rw [← List.cons_append]
    exact (List.perm_append_comm.nodup_iff).mp hn
  · rw [← List.cons_append, path_append]
    exact ((path_append f (a::x) y b a).mp hp).symm

omit [DecidableEq ν] in
theorem last (h : RingOf f a x) {us : List ν} (hx : a::x = us++[b]) : f b = a := by
  have hp := h.path
  rw [hx, path_append] at hp
  exact hp.2

omit [DecidableEq ν] in
theorem pred (h : RingOf f a (x++b::y)) {us : List ν} (hx : a::x = us++[c]) : f c = b := by
  have hp := h.path
  rw [← List.cons_append, path_append, hx, path_append] at hp
  exact hp.1.2

omit [DecidableEq ν] in
theorem unique (hx : RingOf f a x) (hy : RingOf f a y) : x = y := by
  have hax := (List.nodup_cons.mp hx.nodup).1
  have hay := (List.nodup_cons.mp hy.nodup).1
  have key : ∀ (x y : List ν) (b : ν), Path f (b::x) a → Path f (b::y) a → a∉x → a∉y → x = y := by
    intro x
    induction x with
    | nil =>
      intro y b hpx hpy _ hny
      cases y with
      | nil => rfl
      | cons d y =>
        have hd : d = a := hpy.1.symm.trans hpx
        exact absurd (hd ▸ List.mem_cons_self) hny
    | cons c x ih =>
      intro y b hpx hpy hnx hny
      cases y with
      | nil =>
        have hc : c = a := hpx.1.symm.trans hpy
        exact absurd (hc ▸ List.mem_cons_self) hnx
      | cons d y =>
        have hcd : c = d := hpx.1.symm.trans hpy.1
        subst hcd
        rw [ih y c hpx.2 hpy.2 (fun hm => hnx (List.mem_cons_of_mem c hm))
          fun hm => hny (List.mem_cons_of_mem c hm)]
  exact key x y a hx.path hy.path hax hay

theorem append {p : ν} {us : List ν} (hx : RingOf f a x) (hy : RingOf f b y) (hb : b∉a::x)
    (hp : a::x = us++[p]) : RingOf (splice f p b) a (x++(y++[b])) := by
  have hb' : b∉p::us := fun hm => hb (hp ▸ (List.perm_append_singleton p us).mem_iff.mpr hm)
  cases us with
  | nil =>
    obtain ⟨rfl,rfl⟩ := List.cons.inj hp
    exact hx.join hy hb
  | cons c us =>
    obtain ⟨rfl,rfl⟩ := List.cons.inj hp
    have hj : RingOf (splice f p b) p (y++b::a::us) := hx.rotate.join hy hb'
    rw [List.append_cons] at hj
    simpa using hj.rotate

theorem remove {p : ν} {us : List ν} (h : RingOf f a (x++b::y)) (hp : a::x = us++[p]) :
    RingOf (splice f b p) a (x++y) ∧ RingOf (splice f b p) b [] := by
  have hr : RingOf f b ((y++us)++p::[]) := by
    rw [List.append_assoc, ← hp]
    exact h.rotate
  obtain ⟨hb,hpr⟩ := hr.split
  refine ⟨?_,hb⟩
  cases us with
  | nil =>
    obtain ⟨rfl,rfl⟩ := List.cons.inj hp
    simpa using hpr
  | cons c us =>
    obtain ⟨rfl,rfl⟩ := List.cons.inj hp
    simpa using hpr.rotate

end RingOf

theorem update_unit {α : Type*} (f : Unit → α) (x : α) :
    Function.update f () x = fun _ => x := by
  funext u
  cases u
  exact Function.update_self () x f

/-- The successor function holds the lists ls behind the sentinels head, and every
other point is a singleton ring. -/
structure Lists (f : ν → ν) (head : ι → ν) (ls : ι → List ν) : Prop where
  path : ∀ i, Path f (head i::ls i) (head i)
  nodup : ∀ i, (ls i).Nodup
  disjoint : ∀ i j x, x∈ls i → x∈ls j → i = j
  headInj : Function.Injective head
  headNotMem : ∀ i j, head i∉ls j
  single : ∀ x, (∀ i, x≠head i) → (∀ i, x∉ls i) → f x = x

namespace Lists
variable {f : ν → ν} {head : ι → ν} {ls : ι → List ν} {i j : ι} {x : ν}

theorem cons_nodup (h : Lists f head ls) (i : ι) : (head i::ls i).Nodup :=
  List.nodup_cons.mpr ⟨h.headNotMem i i,h.nodup i⟩

theorem not_mem_other (h : Lists f head ls) (hx : x∈head i::ls i) (hij : j≠i) :
    x∉head j::ls j := by
  rintro hm
  rcases List.mem_cons.mp hx with rfl | hx <;> rcases List.mem_cons.mp hm with hm | hm
  · exact hij (h.headInj hm).symm
  · exact h.headNotMem i j hm
  · exact h.headNotMem j i (hm ▸ hx)
  · exact hij (h.disjoint j i x hm hx)

variable [DecidableEq ι]

theorem update_mem {l : List ν} {y : ν} :
    y∈Function.update ls i l j ↔ j = i ∧ y∈l ∨ j≠i ∧ y∈ls j := by
  by_cases hj : j = i
  · subst hj; simp
  · simp [hj]

/-- One list changes: its new ring, no point shared with the others, the other
rings untouched, and everything left over a singleton. -/
theorem update (h : Lists f head ls) {g : ν → ν} {l : List ν}
    (hpath : Path g (head i::l) (head i)) (hn : l.Nodup) (hheads : ∀ j, head j∉l)
    (hdisj : ∀ j, j≠i → ∀ y∈l, y∉ls j)
    (hother : ∀ j, j≠i → ∀ y∈head j::ls j, g y = f y)
    (hsingle : ∀ y, (∀ j, y≠head j) → y∉l → (∀ j, j≠i → y∉ls j) → g y = y) :
    Lists g head (Function.update ls i l) := by
  refine ⟨fun j => ?_,fun j => ?_,fun j k y hj hk => ?_,h.headInj,fun j k hm => ?_,
    fun y hyh hyl => ?_⟩
  · by_cases hji : j = i
    · subst hji
      simpa using hpath
    · rw [Function.update_of_ne hji]
      exact (path_congr (hother j hji)).mpr (h.path j)
  · by_cases hji : j = i
    · subst hji
      simpa using hn
    · simpa [hji] using h.nodup j
  · rcases update_mem.mp hj with ⟨hji,hj⟩ | ⟨hji,hj⟩ <;> rcases update_mem.mp hk with ⟨hki,hk⟩ |
      ⟨hki,hk⟩
    · rw [hji, hki]
    · exact absurd hk (hdisj k hki y hj)
    · exact absurd hj (hdisj j hji y hk)
    · exact h.disjoint j k y hj hk
  · rcases update_mem.mp hm with ⟨-,hm⟩ | ⟨-,hm⟩
    · exact hheads j hm
    · exact h.headNotMem j k hm
  · refine hsingle y hyh (fun hm => hyl i ?_) (fun j hji hm => hyl j ?_)
    · exact update_mem.mpr (Or.inl ⟨rfl,hm⟩)
    · exact update_mem.mpr (Or.inr ⟨hji,hm⟩)

variable [DecidableEq ν]

theorem insert (h : Lists f head ls) (us vs : List ν) (hi : ls i = us++vs) (hxh : ∀ j, x≠head j)
    (hxl : ∀ j, x∉ls j) :
    Lists (splice f ((head i::us).getLast (by simp)) x) head
      (Function.update ls i (us++x::vs)) := by
  set p := (head i::us).getLast (by simp) with hp
  have hd : head i::us = (head i::us).dropLast++[p] := (List.dropLast_append_getLast _).symm
  have hold : head i::ls i = (head i::us).dropLast++p::vs := by
    rw [hi, ← List.cons_append, hd]
    simp
  have hnew : head i::(us++x::vs) = (head i::us).dropLast++p::x::vs := by
    rw [← List.cons_append, hd]
    simp
  have hpm : p∈head i::ls i := by rw [hold]; simp
  have hmem : ∀ y, y∈us++x::vs ↔ y = x ∨ y∈ls i := by
    intro y
    simp only [hi, List.mem_append, List.mem_cons]
    tauto
  have hn : (us++x::vs).Nodup := by
    rw [List.nodup_middle, ← hi]
    exact List.nodup_cons.mpr ⟨hxl i,h.nodup i⟩
  have hheads : ∀ j, head j∉us++x::vs := fun j hm =>
    ((hmem _).mp hm).elim (fun he => hxh j he.symm) (h.headNotMem j i)
  refine h.update ?_ hn hheads (fun j hji y hy hm => ?_) (fun j hji y hy => ?_)
    fun y hyh hyl hyo => ?_
  · rw [hnew]
    refine path_insert f (hold ▸ h.path i) (h.single x hxh hxl) ?_
    rw [← hnew]
    exact List.nodup_cons.mpr ⟨hheads i,hn⟩
  · rcases (hmem y).mp hy with rfl | hy
    · exact hxl j hm
    · exact hji (h.disjoint j i y hm hy)
  · refine splice_other f (fun he => ?_) fun he => ?_
    · exact h.not_mem_other hpm hji (he ▸ hy)
    · exact (List.mem_cons.mp (he ▸ hy)).elim (hxh j) (hxl j)
  · have hyi : y∉ls i := fun hm => hyl ((hmem y).mpr (Or.inr hm))
    rw [splice_other f (fun he => ?_) fun he => hyl ((hmem y).mpr (Or.inl he))]
    · exact h.single y hyh fun j => if hji : j = i then hji ▸ hyi else hyo j hji
    · exact (List.mem_cons.mp (he ▸ hpm)).elim (hyh i) hyi

theorem remove (h : Lists f head ls) (us vs : List ν) (hi : ls i = us++x::vs) :
    Lists (splice f x ((head i::us).getLast (by simp))) head
      (Function.update ls i (us++vs)) := by
  set p := (head i::us).getLast (by simp) with hp
  have hd : head i::us = (head i::us).dropLast++[p] := (List.dropLast_append_getLast _).symm
  have hold : head i::ls i = (head i::us).dropLast++p::x::vs := by
    rw [hi, ← List.cons_append, hd]
    simp
  have hnew : head i::(us++vs) = (head i::us).dropLast++p::vs := by
    rw [← List.cons_append, hd]
    simp
  have hpm : p∈head i::ls i := by rw [hold]; simp
  have hxm : x∈head i::ls i := by rw [hi]; simp
  have hmem : ∀ y, y∈ls i ↔ y = x ∨ y∈us++vs := by
    intro y
    simp only [hi, List.mem_append, List.mem_cons]
    tauto
  have hcn := h.cons_nodup i
  rw [hold] at hcn
  have hxn := hi ▸ h.nodup i
  rw [List.nodup_middle, List.nodup_cons] at hxn
  obtain ⟨hpath,hx⟩ := path_remove f _ _ (hold ▸ h.path i) hcn
  refine h.update (hnew ▸ hpath) hxn.2 (fun j hm => ?_) (fun j hji y hy hm => ?_)
    (fun j hji y hy => ?_) fun y hyh hyl hyo => ?_
  · exact h.headNotMem j i ((hmem _).mpr (Or.inr hm))
  · exact hji (h.disjoint j i y hm ((hmem y).mpr (Or.inr hy)))
  · exact splice_other f (fun he => h.not_mem_other hxm hji (he ▸ hy)) fun he =>
      h.not_mem_other hpm hji (he ▸ hy)
  · by_cases hyx : y = x
    · rw [hyx, hx]
    · have hyi : y∉ls i := fun hm => ((hmem y).mp hm).elim hyx hyl
      rw [splice_other f hyx fun he => ?_]
      · exact h.single y hyh fun j => if hji : j = i then hji ▸ hyi else hyo j hji
      · exact (List.mem_cons.mp (he ▸ hpm)).elim (hyh i) hyi

/-- Join the ring of sentinel j behind the last point of list i, then take the
sentinel out again: list j is moved behind list i. -/
theorem append (h : Lists f head ls) (hij : i≠j) :
    Lists (splice (splice f ((head i::ls i).getLast (by simp)) (head j)) (head j)
        ((head i::(ls i++ls j)).getLast (by simp))) head
      (Function.update (Function.update ls i (ls i++ls j)) j []) := by
  set p := (head i::ls i).getLast (by simp) with hp
  set q := (head i::(ls i++ls j)).getLast (by simp) with hq
  have hdp : head i::ls i = (head i::ls i).dropLast++[p] := (List.dropLast_append_getLast _).symm
  have hdq : head i::(ls i++ls j) = (head i::(ls i++ls j)).dropLast++[q] :=
    (List.dropLast_append_getLast _).symm
  have hpm : p∈head i::ls i := List.getLast_mem _
  have hqm : q∈head i::ls i ∨ q∈head j::ls j := by
    have : q∈head i::(ls i++ls j) := List.getLast_mem _
    simp only [List.mem_cons, List.mem_append] at this ⊢
    tauto
  have hn : (head i::(ls i++ls j)).Nodup := by
    rw [List.nodup_cons, List.mem_append, not_or]
    refine ⟨⟨h.headNotMem i i,h.headNotMem i j⟩,(h.nodup i).append (h.nodup j) ?_⟩
    exact fun y hy hy' => hij (h.disjoint i j y hy hy')
  have hjm : head j∉head i::(ls i++ls j) := by
    simp only [List.mem_cons, List.mem_append, not_or]
    exact ⟨fun he => hij (h.headInj he).symm,h.headNotMem j i,h.headNotMem j j⟩
  have hjoin : (head i::ls i).dropLast++p::(ls j++[head j]) = head i::(ls i++ls j)++[head j] := by
    calc
      (head i::ls i).dropLast++p::(ls j++[head j])
          = ((head i::ls i).dropLast++[p])++ls j++[head j] := by simp
      _ = head i::(ls i++ls j)++[head j] := by rw [← hdp]; simp
  have hnj : (head i::(ls i++ls j)++[head j]).Nodup := by
    refine hn.append (List.nodup_singleton _) fun y hy hy' => hjm ?_
    rwa [← List.mem_singleton.mp hy']
  have h1 : Path (splice f p (head j)) (head i::(ls i++ls j)++[head j]) (head i) := by
    rw [← hjoin]
    exact path_join f (hdp ▸ h.path i) (h.path j) (by rw [hjoin]; exact hnj)
  obtain ⟨h2,h3⟩ := path_remove (splice f p (head j)) _ []
    (by rw [hdq] at h1; simpa using h1) (by rw [hdq] at hnj; simpa using hnj)
  have hsame : ∀ y, y∉head i::ls i → y∉head j::ls j →
      splice (splice f p (head j)) (head j) q y = f y := by
    intro y hyi hyj
    have hyh : y≠head j := fun he => hyj (by simp [he])
    rw [splice_other _ hyh, splice_other _ _ hyh]
    · exact fun he => hyi (he ▸ hpm)
    · exact fun he => hqm.elim (fun hm => hyi (he ▸ hm)) fun hm => hyj (he ▸ hm)
  have hmem : ∀ k y, y∈Function.update (Function.update ls i (ls i++ls j)) j [] k →
      k = i ∧ (y∈ls i ∨ y∈ls j) ∨ k≠i ∧ k≠j ∧ y∈ls k := by
    intro k y hm
    rcases update_mem.mp hm with ⟨-,hm⟩ | ⟨hkj,hm⟩
    · cases hm
    · rcases update_mem.mp hm with ⟨hki,hm⟩ | ⟨hki,hm⟩
      · exact Or.inl ⟨hki,List.mem_append.mp hm⟩
      · exact Or.inr ⟨hki,hkj,hm⟩
  refine ⟨fun k => ?_,fun k => ?_,fun k l y hk hl => ?_,h.headInj,fun k l hm => ?_,
    fun y hyh hyl => ?_⟩
  · by_cases hkj : k = j
    · subst hkj
      simpa [Path] using h3
    · by_cases hki : k = i
      · subst hki
        rw [Function.update_of_ne hkj, Function.update_self, hdq]
        exact h2
      · rw [Function.update_of_ne hkj, Function.update_of_ne hki]
        refine (path_congr fun y hy => hsame y ?_ ?_).mpr (h.path k)
        · exact h.not_mem_other hy (Ne.symm hki)
        · exact h.not_mem_other hy (Ne.symm hkj)
  · by_cases hkj : k = j
    · subst hkj
      simp
    · by_cases hki : k = i
      · subst hki
        simpa [hkj] using (List.nodup_cons.mp hn).2
      · simpa [hkj, hki] using h.nodup k
  · rcases hmem k y hk with ⟨hk,hyk⟩ | ⟨hki,hkj,hyk⟩ <;> rcases hmem l y hl with ⟨hl,hyl⟩ |
      ⟨hli,hlj,hyl⟩
    · rw [hk, hl]
    · rcases hyk with hyk | hyk
      · exact absurd (h.disjoint l i y hyl hyk) hli
      · exact absurd (h.disjoint l j y hyl hyk) hlj
    · rcases hyl with hyl | hyl
      · exact absurd (h.disjoint k i y hyk hyl) hki
      · exact absurd (h.disjoint k j y hyk hyl) hkj
    · exact h.disjoint k l y hyk hyl
  · rcases hmem l _ hm with ⟨-,hm | hm⟩ | ⟨-,-,hm⟩
    · exact h.headNotMem k i hm
    · exact h.headNotMem k j hm
    · exact h.headNotMem k l hm
  · have hyi : y∉ls i++ls j := fun hm => hyl i (by simpa [hij] using hm)
    have hyo : ∀ k, y∉ls k := fun k hm => by
      by_cases hkj : k = j
      · exact hyi (by simp [← hkj, hm])
      · by_cases hki : k = i
        · exact hyi (by simp [← hki, hm])
        · exact hyl k (by simpa [hki, hkj] using hm)
    rw [hsame y (by simp [hyh i, hyo i]) (by simp [hyh j, hyo j])]
    exact h.single y hyh hyo

omit [DecidableEq ι] in
theorem append_last (h : Lists f head ls) (hij : i≠j) :
    splice f ((head i::ls i).getLast (by simp)) (head j)
      ((head i::(ls i++ls j)).getLast (by simp)) = head j := by
  have hj := path_getLast (h.path j) (by simp)
  rcases List.eq_nil_or_concat (ls j) with hnil | ⟨ys,y,hy⟩
  · simp only [hnil, List.append_nil, splice_left, List.getLast_singleton] at hj ⊢
    exact hj
  · have hlast : (head i::(ls i++ls j)).getLast (by simp) = y := by simp [hy]
    have hyj : y∈ls j := by simp [hy]
    have hjl : (head j::ls j).getLast (by simp) = y := by simp [hy]
    rw [hlast, splice_other]
    · rw [hjl] at hj
      exact hj
    · intro he
      refine h.not_mem_other (List.getLast_mem (l := head i::ls i) (by simp)) hij.symm ?_
      rw [← he]
      simp [hyj]
    · exact fun he => h.headNotMem j j (he ▸ hyj)

end Lists
end Ring
