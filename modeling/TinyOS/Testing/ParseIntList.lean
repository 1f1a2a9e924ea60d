import TinyOS.Lib.Strings
import Mathlib.Data.Finset.Dedup
import Mathlib.Data.Int.Interval
import Mathlib.Data.List.Sort

/-! parse_int_list: the accepted numbers go to a temporary array of to-from+1 cells, are sorted
there, and are copied to nlist. Duplicates are looked for in nlist itself. -/
namespace TinyOS.Testing
open Strings

def INT_MAX : Int := 2147483647
def INT_MIN : Int := -2147483648

def toInt (x : Int) : Int := x.bmod 4294967296

def comma : UInt8 := 44

def number (lo hi : Int) (token : List UInt8) : Option Int :=
  let (x,endptr) := strtol token
  let num := toInt x
  if endptr = token ∨ endptr≠[] then none
  else if num < lo ∨ num > hi then none
  else some num

/-- An overrun is the store args[i++] = num behind the end of args. -/
inductive Loop where
  | overrun
  | fail
  | done (args : List Int)

section
variable (nlist : Nat → Int) (lo hi : Int)

def parseLoop : List (List UInt8) → List Int → Loop
  | [], args => .done args
  | token::tokens, args =>
    match number lo hi token with
    | none => .fail
    | some num =>
      if ∃ j<args.length, num = nlist j then parseLoop tokens args
      else if args.length < hi-lo+1 then parseLoop tokens (args++[num])
      else .overrun

end

def cmpint (a b : Int) : Int := if b < a then 1 else 0

/-- The results of compar are consistent: it defines a total ordering on the array. -/
structure Orders (compar : Int → Int → Int) (l : List Int) : Prop where
  sign : ∀ a∈l, ∀ b∈l, compar a b < 0 ↔ 0 < compar b a
  trans : ∀ a∈l, ∀ b∈l, ∀ c∈l, compar a b ≤ 0 → compar b c ≤ 0 → compar a c ≤ 0

/-- What the C standard says of qsort. The order of elements that compare equal is
unspecified, and so is all but the size of the array if compar defines no ordering on it. -/
structure IsQsort (qsort : (Int → Int → Int) → List Int → List Int) : Prop where
  length : ∀ compar l, (qsort compar l).length = l.length
  perm : ∀ compar l, Orders compar l → (qsort compar l).Perm l
  sorted : ∀ compar l, Orders compar l → (qsort compar l).Pairwise fun a b => compar a b ≤ 0

def memcpy (dest : Nat → Int) (src : List Int) : Nat → Int := fun j => src.getD j (dest j)

structure Result where
  ret : Int
  nlen : Int
  nlist : Nat → Int

/-- Now sort, copy and exit. -/
def finish (qsort : (Int → Int → Int) → List Int → List Int) (nlist : Nat → Int)
    (args : List Int) : Result :=
  let sorted := qsort cmpint args
  ⟨if (args.length : Int) > 0 then 1 else 0,args.length,memcpy nlist sorted⟩

/-- With lo for from and hi for to. There is no result if the size of args overflows an int, or
on an overrun. -/
def parseIntList (qsort : (Int → Int → Int) → List Int → List Int) (arg : List UInt8) (nlen : Int)
    (nlist : Nat → Int) (lo hi : Int) : Option Result :=
  if hi-lo+1 > INT_MAX then none
  else
    match parseLoop nlist lo hi (tokens comma (arg.length+1) arg) [] with
    | .overrun => none
    | .fail => some ⟨0,nlen,nlist⟩
    | .done args => some (finish qsort nlist args)

/-! What the comment of parse_int_list says. -/

def Good (lo hi : Int) (field : List UInt8) : Prop := ∃ v, IsDecimal field v ∧ lo ≤ v ∧ v ≤ hi

structure Meets (arg : List UInt8) (nlist : Nat → Int) (lo hi : Int) (r : Result) : Prop where
  ret : r.ret = 1 ↔ fields comma arg≠[] ∧ ∀ f∈fields comma arg, Good lo hi f
  success : r.ret = 1 → ∃ l : List Int, l.Pairwise (· < ·) ∧
    (∀ v, v∈l ↔ ∃ f∈fields comma arg, IsDecimal f v) ∧
    r.nlen = l.length ∧ l.length ≤ hi-lo+1 ∧ r.nlist = memcpy nlist l
  failure : r.ret≠1 → r.ret = 0 ∧ r.nlist = nlist

/-! When it does so. -/

def values (lo hi : Int) : List (List UInt8) → List Int
  | [] => []
  | token::tokens =>
    match number lo hi token with
    | none => []
    | some num => num::values lo hi tokens

def Stored (nlist : Nat → Int) : Nat → List Int → Prop
  | _, [] => True
  | i, v::l => (¬∃ j < i, v = nlist j) ∧ Stored nlist (i+1) l

def keep (nlist : Nat → Int) : List Int → List Int → List Int
  | args, [] => args
  | args, v::l => if ∃ j<args.length, v = nlist j then keep nlist args l
    else keep nlist (args++[v]) l

section
variable {nlist : Nat → Int} {lo hi : Int} {args l : List Int} {v : Int}

theorem keep_spec (nlist : Nat → Int) (args l : List Int) :
    ∃ w, keep nlist args l = args++w ∧ w.Sublist l ∧ Stored nlist args.length w := by
  induction l generalizing args with
  | nil => exact ⟨[],(List.append_nil args).symm,List.Sublist.refl [],trivial⟩
  | cons v l ih =>
    by_cases hv : ∃ j<args.length, v = nlist j
    · obtain ⟨w,hw,hsub,hst⟩ := ih args
      exact ⟨w,by rw [keep, if_pos hv, hw],hsub.cons v,hst⟩
    · obtain ⟨w,hw,hsub,hst⟩ := ih (args++[v])
      rw [List.length_append] at hst
      exact ⟨v::w,by rw [keep, if_neg hv, hw]; simp,hsub.cons_cons v,hv,hst⟩

theorem keep_sublist (nlist : Nat → Int) (l : List Int) : (keep nlist [] l).Sublist l := by
  obtain ⟨w,hw,hsub,-⟩ := keep_spec nlist [] l
  rw [hw]
  exact hsub

theorem mem_keep (nlist : Nat → Int) (l : List Int) (hv : v∈args) : v∈keep nlist args l := by
  obtain ⟨w,hw,-⟩ := keep_spec nlist args l
  rw [hw]
  exact List.mem_append_left w hv

theorem not_mem_keep (hv : v∉args) (hseen : ∃ j<args.length, v = nlist j) :
    v∉keep nlist args l := by
  obtain ⟨j,hj,hvj⟩ := hseen
  induction l generalizing args with
  | nil => exact hv
  | cons u l ih =>
    by_cases hu : ∃ j<args.length, u = nlist j
    · rw [keep, if_pos hu]
      exact ih hv hj
    · rw [keep, if_neg hu]
      have hne : v≠u := fun he => hu ⟨j,hj,he ▸ hvj⟩
      refine ih ?_ ?_
      · simp [hv, hne]
      · rw [List.length_append]
        omega

theorem keep_longest (args : List Int) {i : Nat} {w : List Int} (hw : w.Sublist l)
    (hst : Stored nlist i w) (hi : i ≤ args.length) : i+w.length ≤ (keep nlist args l).length := by
  induction l generalizing args i w with
  | nil =>
    rw [List.sublist_nil.mp hw]
    exact hi
  | cons v l ih =>
    have hkeep : keep nlist args (v::l) = if ∃ j<args.length, v = nlist j then keep nlist args l
      else keep nlist (args++[v]) l := rfl
    have hlen : args.length ≤ (args++[v]).length := by simp
    cases hw with
    | cons _ hw =>
      rw [hkeep]
      split
      · exact ih args hw hst hi
      · exact ih (args++[v]) hw hst (by omega)
    | cons_cons _ hw =>
      obtain ⟨hv,hst⟩ := hst
      rw [List.length_cons, hkeep]
      split
      -- v is behind index i of nlist, so more than i numbers have been kept
      · rename_i hseen
        obtain ⟨j,hj,hvj⟩ := hseen
        have hij : i ≤ j := by
          by_contra hlt
          exact hv ⟨j,by omega,hvj⟩
        have hnext := ih args hw hst (by omega)
        omega
      · have hnext := ih (args++[v]) hw hst (by simpa using hi)
        omega

theorem dedup_length_congr {a b : List Int} (h : ∀ x, x∈a ↔ x∈b) :
    a.dedup.length = b.dedup.length := by
  have hset : a.toFinset = b.toFinset := by
    ext x
    simp [h x]
  rw [← List.card_toFinset, ← List.card_toFinset, hset]

theorem keep_once_iff (nlist : Nat → Int) (l : List Int) (ha : args.Nodup) :
    ((keep nlist args l).Nodup ∧ ∀ v∈l, v∈keep nlist args l) ↔
    ∀ pre v post, l = pre++v::post →
      ((∃ j<(args++pre).dedup.length, v = nlist j) ↔ v∈args++pre) := by
  induction l generalizing args with
  | nil => simp [keep, ha]
  | cons v l ih =>
    rw [forall_splits_cons, List.append_nil, ha.dedup]
    by_cases hseen : ∃ j<args.length, v = nlist j
    · rw [keep, if_pos hseen]
      by_cases hv : v∈args
      · have hmem : ∀ (pre : List Int) x, x∈args++v::pre ↔ x∈args++pre := by
          intro pre x
          simp only [List.mem_append, List.mem_cons]
          constructor
          · rintro (hx | rfl | hx)
            · exact .inl hx
            · exact .inl hv
            · exact .inr hx
          · rintro (hx | hx)
            · exact .inl hx
            · exact .inr (.inr hx)
        simp only [iff_true_intro hv, iff_true_intro hseen, true_and, List.forall_mem_cons,
          iff_true_intro (mem_keep nlist l hv), ih ha, hmem,
          dedup_length_congr (hmem _)]
      · have hnot := not_mem_keep (l := l) hv hseen
        constructor
        · intro h
          exact absurd (h.2 v List.mem_cons_self) hnot
        · intro h
          exact absurd (h.1.mp hseen) hv
    · rw [keep, if_neg hseen]
      by_cases hv : v∈args
      · constructor
        · intro h
          obtain ⟨w,hw,-⟩ := keep_spec nlist (args++[v]) l
          have hnodup := h.1
          rw [hw] at hnodup
          have hdis := (List.nodup_append'.mp (List.nodup_append'.mp hnodup).1).2.2
          exact absurd List.mem_cons_self (hdis hv)
        · intro h
          exact absurd (h.1.mpr hv) hseen
      · have hnodup : (args++[v]).Nodup := by
          simp [List.nodup_append', ha, hv]
        have hkeep : v∈keep nlist (args++[v]) l := mem_keep nlist l (by simp)
        have hnext := ih hnodup
        simp only [List.append_assoc, List.singleton_append] at hnext
        simp only [iff_false_intro hv, iff_false_intro hseen, true_and, List.forall_mem_cons,
          iff_true_intro hkeep, hnext]

/-! The tokens -/

theorem parseLoop_eq (tokens : List (List UInt8)) (ha : args.length ≤ hi-lo+1) :
    parseLoop nlist lo hi tokens args =
      if (keep nlist args (values lo hi tokens)).length ≤ hi-lo+1 then
        if ∀ f∈tokens, number lo hi f≠none then .done (keep nlist args (values lo hi tokens))
        else .fail
      else .overrun := by
  induction tokens generalizing args with
  | nil => simp [parseLoop, values, keep, ha]
  | cons token tokens ih =>
    cases hnum : number lo hi token with
    | none => simp [parseLoop, values, keep, hnum, ha]
    | some num =>
      have hall : (∀ f∈token::tokens, number lo hi f≠none) ↔
          ∀ f∈tokens, number lo hi f≠none := by simp [hnum]
      simp only [parseLoop, values, hnum, keep, hall]
      split
      · exact ih ha
      · split
        · refine ih ?_
          simp only [List.length_append, List.length_singleton, Nat.cast_add, Nat.cast_one]
          omega
        · obtain ⟨w,hw,-⟩ := keep_spec nlist (args++[num]) (values lo hi tokens)
          have hlen : (keep nlist (args++[num]) (values lo hi tokens)).length =
            args.length+1+w.length := by
            rw [hw, List.length_append, List.length_append]
            rfl
          rw [if_neg (by omega)]

theorem number_eq (lo hi : Int) (f : List UInt8) :
    number lo hi f = if (strtol f).2 = f ∨ (strtol f).2≠[] then none
      else if toInt (strtol f).1 < lo ∨ toInt (strtol f).1 > hi then none
      else some (toInt (strtol f).1) := rfl

theorem number_range {token : List UInt8} (h : number lo hi token = some v) : lo ≤ v ∧ v ≤ hi := by
  simp only [number] at h
  split at h
  · cases h
  · split at h
    · cases h
    · cases h
      omega

theorem mem_values {tokens : List (List UInt8)} (hall : ∀ f∈tokens, number lo hi f≠none) :
    v∈values lo hi tokens ↔ ∃ f∈tokens, number lo hi f = some v := by
  induction tokens with
  | nil => simp [values]
  | cons token tokens ih =>
    have hnext := ih fun f hf => hall f (List.mem_cons_of_mem _ hf)
    cases hnum : number lo hi token with
    | none => exact absurd hnum (hall token List.mem_cons_self)
    | some num =>
      simp only [values, hnum, List.mem_cons, hnext, or_and_right, exists_or, exists_eq_left,
        Option.some.injEq, eq_comm (a := v)]

structure Range (lo hi : Int) : Prop where
  lower : INT_MIN ≤ lo
  upper : hi ≤ INT_MAX

theorem toInt_self (hrange : Range lo hi) (hv : lo ≤ v ∧ v ≤ hi) : toInt v = v ∧ toLong v = v := by
  have hlower := hrange.lower
  have hupper := hrange.upper
  simp only [INT_MIN, INT_MAX] at hlower hupper
  constructor
  · rw [toInt, Int.bmod_def]
    split <;> omega
  · rw [toLong]
    omega

theorem toLong_range (hrange : Range lo hi) (hv : lo ≤ toLong v ∧ toLong v ≤ hi) :
    toLong v = v := by
  have hlower := hrange.lower
  have hupper := hrange.upper
  simp only [INT_MIN, INT_MAX, toLong] at hlower hupper hv ⊢
  omega

theorem number_decimal {f : List UInt8} (hrange : Range lo hi) (hf : IsDecimal f v)
    (hv : lo ≤ v ∧ v ≤ hi) : number lo hi f = some v ∧ (strtol f).1 = v := by
  obtain ⟨hint,hlong⟩ := toInt_self hrange hv
  have hs : strtol f = (v,[]) := by rw [hf.strtol, hlong]
  constructor
  · have hne := hf.ne_nil.symm
    simp [number, hs, hint, hne, hv]
  · rw [hs]

/-- The condition on a field: no white space in front, and a value that is in the range as a
long already. -/
def Plain (lo hi : Int) (field : List UInt8) : Prop :=
  (∀ b, field.head? = some b → isspace b = false) ∧ lo ≤ (strtol field).1 ∧ (strtol field).1 ≤ hi

theorem decimal_of_number {f : List UInt8} (hrange : Range lo hi) (hf : Plain lo hi f)
    (hnum : number lo hi f = some v) : IsDecimal f v := by
  obtain ⟨hhead,hlong⟩ := hf
  have hne : (strtol f).2≠f ∧ (strtol f).2 = [] := by
    by_contra hend
    rw [number_eq, if_pos ((not_and_or.mp hend).imp_left not_not.mp)] at hnum
    cases hnum
  obtain ⟨u,hu,heq⟩ := decimal_of_strtol hhead hne.1 hne.2
  rw [heq] at hlong
  have hself := toLong_range hrange hlong
  rw [hself] at hlong
  have hsome := (number_decimal hrange hu hlong).1
  rw [hnum] at hsome
  rwa [Option.some.inj hsome]

theorem good_iff {f : List UInt8} (hrange : Range lo hi) :
    Good lo hi f ↔ number lo hi f≠none ∧ Plain lo hi f := by
  constructor
  · rintro ⟨v,hf,hv⟩
    obtain ⟨hnum,hlong⟩ := number_decimal hrange hf hv
    rw [Plain, hnum, hlong]
    exact ⟨nofun,hf.head,hv⟩
  · rintro ⟨hnum,hf⟩
    obtain ⟨v,hv⟩ := Option.ne_none_iff_exists'.mp hnum
    exact ⟨v,decimal_of_number hrange hf hv,number_range hv⟩

/-! The sorted array -/

theorem cmpint_le (a b : Int) : cmpint a b ≤ 0 ↔ a ≤ b := by
  rw [cmpint]
  split <;> omega

/-- cmpint never finds its first argument less, so that it orders no two numbers. -/
theorem orders_cmpint_iff (l : List Int) : Orders cmpint l ↔ ∀ a∈l, ∀ b∈l, a = b := by
  constructor
  · intro h a ha b hb
    have hsign := h.sign a ha b hb
    have hsign' := h.sign b hb a ha
    simp only [cmpint] at hsign hsign'
    split at hsign <;> split at hsign' <;> omega
  · intro h
    constructor
    · intro a ha b hb
      simp [h a ha b hb, cmpint]
    · intro a ha b hb c hc hab hbc
      rw [h a ha b hb]
      exact hbc

def sortBy (compar : Int → Int → Int) (l : List Int) : List Int :=
  (l.attach.mergeSort fun a b => compar a b ≤ 0).map Subtype.val

theorem sortBy_perm (compar : Int → Int → Int) (l : List Int) : (sortBy compar l).Perm l := by
  have h := (List.mergeSort_perm l.attach fun a b => compar a b ≤ 0).map Subtype.val
  rwa [List.attach_map_subtype_val] at h

theorem sortBy_pairwise {compar : Int → Int → Int} {l : List Int}
    (htotal : ∀ a∈l, ∀ b∈l, compar a b ≤ 0 ∨ compar b a ≤ 0)
    (htrans : ∀ a∈l, ∀ b∈l, ∀ c∈l, compar a b ≤ 0 → compar b c ≤ 0 → compar a c ≤ 0) :
    (sortBy compar l).Pairwise fun a b => compar a b ≤ 0 := by
  have h := @List.pairwise_mergeSort {x // x∈l} (fun a b => decide (compar a b ≤ 0))
    (fun a b c hab hbc => by
      simp only [decide_eq_true_eq] at hab hbc ⊢
      exact htrans a a.2 b b.2 c c.2 hab hbc)
    (fun a b => by simpa using htotal a a.2 b b.2) l.attach
  rw [sortBy, List.pairwise_map]
  exact h.imp fun hab => by simpa using hab

theorem isQsort_sortBy : IsQsort sortBy where
  length compar l := (sortBy_perm compar l).length_eq
  perm compar l _ := sortBy_perm compar l
  sorted compar l h := by
    refine sortBy_pairwise (fun a ha b hb => ?_) h.trans
    have hsign := h.sign b hb a ha
    omega

theorem sortBy_cmpint (l : List Int) : (sortBy cmpint l).Pairwise (· ≤ ·) := by
  have h : (sortBy cmpint l).Pairwise fun a b => cmpint a b ≤ 0 := by
    refine sortBy_pairwise (fun a _ b _ => ?_) (fun a _ b _ c _ => ?_)
    · rw [cmpint_le, cmpint_le]
      exact le_total a b
    · rw [cmpint_le, cmpint_le, cmpint_le]
      exact le_trans
  exact h.imp fun {a b} hab => (cmpint_le a b).mp hab

instance (compar : Int → Int → Int) (l : List Int) : Decidable (Orders compar l) :=
  decidable_of_iff ((∀ a∈l, ∀ b∈l, compar a b < 0 ↔ 0 < compar b a) ∧
      ∀ a∈l, ∀ b∈l, ∀ c∈l, compar a b ≤ 0 → compar b c ≤ 0 → compar a c ≤ 0)
    ⟨fun h => ⟨h.1,h.2⟩,fun h => ⟨h.sign,h.trans⟩⟩

def sortOrdered (compar : Int → Int → Int) (l : List Int) : List Int :=
  if Orders compar l then sortBy compar l else List.replicate l.length 0

theorem isQsort_sortOrdered : IsQsort sortOrdered where
  length compar l := by
    rw [sortOrdered]
    split
    · exact isQsort_sortBy.length compar l
    · exact List.length_replicate
  perm compar l h := by
    rw [sortOrdered, if_pos h]
    exact sortBy_perm compar l
  sorted compar l h := by
    rw [sortOrdered, if_pos h]
    exact isQsort_sortBy.sorted compar l h

theorem length_range (hl : l.Nodup) (hrange : ∀ v∈l, lo ≤ v ∧ v ≤ hi) (hle : lo ≤ hi) :
    l.length ≤ hi-lo+1 := by
  have hsub : l.toFinset ⊆ Finset.Icc lo hi := by
    intro v hv
    simpa using hrange v (List.mem_toFinset.mp hv)
  have hcard := Finset.card_le_card hsub
  rw [List.toFinset_card_of_nodup hl, Int.card_Icc] at hcard
  omega

/-! The result -/

variable (qsort : (Int → Int → Int) → List Int → List Int)

theorem parseIntList_eq (arg : List UInt8) (nlen : Int) (nlist : Nat → Int)
    (hsize : hi-lo+1 ≤ INT_MAX) (hle : lo ≤ hi) :
    parseIntList qsort arg nlen nlist lo hi =
      if (keep nlist [] (values lo hi (fields comma arg))).length ≤ hi-lo+1 then
        if ∀ f∈fields comma arg, number lo hi f≠none then
          some (finish qsort nlist (keep nlist [] (values lo hi (fields comma arg))))
        else some ⟨0,nlen,nlist⟩
      else none := by
  have hzero : ((([] : List Int).length : Nat) : Int) ≤ hi-lo+1 := by
    rw [List.length_nil]
    omega
  rw [parseIntList, if_neg (by omega), tokens_eq (Nat.lt_succ_self _), parseLoop_eq _ hzero]
  by_cases hlen : (keep nlist [] (values lo hi (fields comma arg))).length ≤ hi-lo+1
  · rw [if_pos hlen, if_pos hlen]
    by_cases hall : ∀ f∈fields comma arg, number lo hi f≠none
    · rw [if_pos hall, if_pos hall]
    · rw [if_neg hall, if_neg hall]
  · rw [if_neg hlen, if_neg hlen]

theorem keep_eq_nil_iff (nlist : Nat → Int) (l : List Int) : keep nlist [] l = [] ↔ l = [] := by
  cases l with
  | nil => simp [keep]
  | cons v l =>
    have hmem : v∈keep nlist [v] l := mem_keep nlist l List.mem_cons_self
    have hkeep : keep nlist [] (v::l) = keep nlist [v] l := by simp [keep]
    rw [hkeep]
    simp only [reduceCtorEq, iff_false]
    intro hnil
    rw [hnil] at hmem
    cases hmem

theorem values_eq_nil_iff {tokens : List (List UInt8)}
    (hall : ∀ f∈tokens, number lo hi f≠none) : values lo hi tokens = [] ↔ tokens = [] := by
  cases tokens with
  | nil => simp [values]
  | cons token tokens =>
    obtain ⟨v,hv⟩ := Option.ne_none_iff_exists'.mp (hall token List.mem_cons_self)
    simp [values, hv]

theorem finish_ret {args : List Int} : (finish qsort nlist args).ret = 1 ↔ args≠[] := by
  have hpos := List.length_pos_iff (l := args)
  simp only [finish]
  rw [← hpos]
  split <;> omega

theorem memcpy_injective {dest : Nat → Int} {a b : List Int} (hlen : a.length = b.length)
    (h : memcpy dest a = memcpy dest b) : a = b := by
  refine List.ext_getElem hlen fun j ha hb => ?_
  have hj := congrFun h j
  simpa [memcpy, ha, hb] using hj

section
variable {arg : List UInt8} {nlen : Int}

def Tells (nlist : Nat → Int) (l : List Int) : Prop :=
  ∀ pre v post, l = pre++v::post → ((∃ j<pre.dedup.length, v = nlist j) ↔ v∈pre)

theorem finish_meets_iff {qsort : (Int → Int → Int) → List Int → List Int} {w : List Int}
    (hperm : (qsort cmpint w).Perm w) (hpair : (qsort cmpint w).Pairwise (· ≤ ·)) (hle : lo ≤ hi)
    (hnil : w = [] ↔ fields comma arg = []) :
    Meets arg nlist lo hi (finish qsort nlist w) ↔
    (∀ f∈fields comma arg, Good lo hi f) ∧ w.Nodup ∧
      (∀ v, v∈w ↔ ∃ f∈fields comma arg, IsDecimal f v) ∧ w.length ≤ hi-lo+1 := by
  constructor
  · intro h
    by_cases hw : w = []
    · rw [hw, hnil.mp hw]
      refine ⟨nofun,List.nodup_nil,by simp,?_⟩
      rw [List.length_nil]
      omega
    · have hret : (finish qsort nlist w).ret = 1 := (finish_ret qsort).mpr hw
      obtain ⟨l,hsorted,hl,hnlen,hlen,hnlist⟩ := h.success hret
      have hnat : (qsort cmpint w).length = l.length := hperm.length_eq.trans (Int.ofNat.inj hnlen)
      rw [memcpy_injective hnat hnlist] at hperm
      refine ⟨(h.ret.mp hret).2,hperm.nodup (hsorted.imp Int.ne_of_lt),fun v => ?_,?_⟩
      · rw [← hperm.mem_iff, hl]
      · rw [← hperm.length_eq]
        exact hlen
  · rintro ⟨hgood,hnodup,hmem,hlen⟩
    refine ⟨?_,fun _ => ⟨qsort cmpint w,?_,fun v => ?_,?_,?_,rfl⟩,fun hret => ?_⟩
    · rw [finish_ret, ne_eq, hnil]
      exact (and_iff_left hgood).symm
    · exact (hpair.and (hperm.nodup_iff.mpr hnodup)).imp fun h => lt_of_le_of_ne h.1 h.2
    · rw [hperm.mem_iff, hmem]
    · rw [hperm.length_eq]
      rfl
    · rw [hperm.length_eq]
      exact hlen
    · rw [ne_eq, finish_ret, not_not] at hret
      subst hret
      have hsorted : qsort cmpint [] = [] := List.perm_nil.mp hperm
      simp only [finish, hsorted]
      exact ⟨rfl,rfl⟩

theorem mem_values_decimal (hrange : Range lo hi) {tokens : List (List UInt8)}
    (hall : ∀ f∈tokens, number lo hi f≠none) (hplain : ∀ f∈tokens, Plain lo hi f) (v : Int) :
    v∈values lo hi tokens ↔ ∃ f∈tokens, IsDecimal f v := by
  rw [mem_values hall]
  refine exists_congr fun f => and_congr_right fun hf => ?_
  obtain ⟨u,hu⟩ := Option.ne_none_iff_exists'.mp (hall f hf)
  have hdec := decimal_of_number hrange (hplain f hf) hu
  constructor
  · exact decimal_of_number hrange (hplain f hf)
  · intro hv
    rw [hu, hv.unique hdec]

theorem meets_rejected (hrange : Range lo hi) (hle : lo ≤ hi) (hsize : hi-lo+1 ≤ INT_MAX)
    (hnone : ¬∀ f∈fields comma arg, number lo hi f≠none) :
    (∃ r, parseIntList qsort arg nlen nlist lo hi = some r ∧ Meets arg nlist lo hi r) ↔
    ∀ w : List Int, w.Sublist (values lo hi (fields comma arg)) → Stored nlist 0 w →
      w.length ≤ hi-lo+1 := by
  rw [parseIntList_eq qsort arg nlen nlist hsize hle, if_neg hnone]
  obtain ⟨w,hw,hsub,hst⟩ := keep_spec nlist [] (values lo hi (fields comma arg))
  rw [List.nil_append] at hw
  constructor
  · rintro ⟨r,hr,-⟩ u hu hust
    have hlong := keep_longest [] hu hust (Nat.zero_le _)
    split at hr
    · omega
    · cases hr
  · intro h
    have hlen := h w hsub hst
    rw [hw, if_pos hlen]
    have hret : (0 : Int)≠1 := by decide
    refine ⟨_,rfl,⟨fun h1 => absurd h1 hret,fun hgood => ?_⟩,fun h1 => absurd h1 hret,
      fun _ => ⟨rfl,rfl⟩⟩
    exact absurd (fun f hf => ((good_iff hrange).mp (hgood.2 f hf)).1) hnone

theorem meets_accepted (hrange : Range lo hi) (hle : lo ≤ hi) (hsize : hi-lo+1 ≤ INT_MAX)
    (hall : ∀ f∈fields comma arg, number lo hi f≠none) {w : List Int}
    (hw : keep nlist [] (values lo hi (fields comma arg)) = w)
    (hperm : (qsort cmpint w).Perm w) (hpair : (qsort cmpint w).Pairwise (· ≤ ·)) :
    (∃ r, parseIntList qsort arg nlen nlist lo hi = some r ∧ Meets arg nlist lo hi r) ↔
    (∀ f∈fields comma arg, Plain lo hi f) ∧ Tells nlist (values lo hi (fields comma arg)) := by
  have honce := keep_once_iff nlist (values lo hi (fields comma arg)) List.nodup_nil
  simp only [List.nil_append, hw] at honce
  rw [Tells, ← honce, parseIntList_eq qsort arg nlen nlist hsize hle, if_pos hall, hw]
  have hsub : w.Sublist (values lo hi (fields comma arg)) := hw ▸ keep_sublist nlist _
  have hnil := (keep_eq_nil_iff nlist _).trans (values_eq_nil_iff hall)
  rw [hw] at hnil
  constructor
  · rintro ⟨r,hr,hmeets⟩
    have hr : finish qsort nlist w = r := by
      split at hr
      · exact Option.some.inj hr
      · cases hr
    rw [← hr, finish_meets_iff hperm hpair hle hnil] at hmeets
    obtain ⟨hgood,hnodup,hmem,-⟩ := hmeets
    have hplain : ∀ f∈fields comma arg, Plain lo hi f := fun f hf =>
      ((good_iff hrange).mp (hgood f hf)).2
    refine ⟨hplain,hnodup,fun v hv => (hmem v).mpr ?_⟩
    exact (mem_values_decimal hrange hall hplain v).mp hv
  · rintro ⟨hplain,hnodup,hkept⟩
    have hlen : w.length ≤ hi-lo+1 := by
      refine length_range hnodup (fun v hv => ?_) hle
      obtain ⟨f,-,hf⟩ := (mem_values hall).mp (hsub.subset hv)
      exact number_range hf
    rw [if_pos hlen]
    refine ⟨_,rfl,(finish_meets_iff hperm hpair hle hnil).mpr ⟨fun f hf => ?_,hnodup,fun v => ?_,
      hlen⟩⟩
    · exact (good_iff hrange).mpr ⟨hall f hf,hplain f hf⟩
    · rw [← mem_values_decimal hrange hall hplain]
      exact ⟨fun hv => hsub.subset hv,hkept v⟩

theorem meets_ordered {w : List Int} (h : Meets arg nlist lo hi (finish sortOrdered nlist w)) :
    ∀ u∈w, ∀ v∈w, u = v := by
  by_contra hne
  have hlost : sortOrdered cmpint w = List.replicate w.length 0 := by
    rw [sortOrdered, if_neg (mt (orders_cmpint_iff w).mp hne)]
  have hw : w≠[] := by
    rintro rfl
    exact hne (by simp)
  obtain ⟨l,hsorted,-,hnlen,-,hnlist⟩ := h.success ((finish_ret sortOrdered).mpr hw)
  have hlen : (sortOrdered cmpint w).length = l.length :=
    (isQsort_sortOrdered.length cmpint w).trans (Int.ofNat.inj hnlen)
  have hl := memcpy_injective hlen hnlist
  have hnodup : (List.replicate w.length (0 : Int)).Nodup := by
    rw [← hlost, hl]
    exact hsorted.imp Int.ne_of_lt
  have hone := List.nodup_replicate.mp hnodup
  apply hne
  intro u hu v hv
  match w, hone with
  | [x], _ => rw [List.mem_singleton.mp hu, List.mem_singleton.mp hv]

theorem meets_standard (hrange : Range lo hi) (hle : lo ≤ hi) (hsize : hi-lo+1 ≤ INT_MAX)
    (hall : ∀ f∈fields comma arg, number lo hi f≠none) :
    (∀ qsort, IsQsort qsort → ∃ r, parseIntList qsort arg nlen nlist lo hi = some r ∧
      Meets arg nlist lo hi r) ↔
    (∀ f∈fields comma arg, Plain lo hi f) ∧ Tells nlist (values lo hi (fields comma arg)) ∧
      ∀ u∈values lo hi (fields comma arg), ∀ v∈values lo hi (fields comma arg), u = v := by
  obtain ⟨w,hw⟩ : ∃ w, keep nlist [] (values lo hi (fields comma arg)) = w := ⟨_,rfl⟩
  have hsub : w.Sublist (values lo hi (fields comma arg)) := hw ▸ keep_sublist nlist _
  constructor
  · intro h
    obtain ⟨hplain,htells⟩ := (meets_accepted sortBy hrange hle hsize hall hw (sortBy_perm _ _)
      (sortBy_cmpint w)).mp (h sortBy isQsort_sortBy)
    refine ⟨hplain,htells,?_⟩
    obtain ⟨r,hr,hmeets⟩ := h sortOrdered isQsort_sortOrdered
    rw [parseIntList_eq _ arg nlen nlist hsize hle, if_pos hall, hw] at hr
    have hr : finish sortOrdered nlist w = r := by
      split at hr
      · exact Option.some.inj hr
      · cases hr
    have heq := meets_ordered (hr ▸ hmeets)
    have hkept := ((keep_once_iff nlist (values lo hi (fields comma arg)) List.nodup_nil).mpr
      htells).2
    rw [hw] at hkept
    exact fun u hu v hv => heq u (hkept u hu) v (hkept v hv)
  · rintro ⟨hplain,htells,heq⟩ qsort hq
    have horders : Orders cmpint w := (orders_cmpint_iff w).mpr fun u hu v hv =>
      heq u (hsub.subset hu) v (hsub.subset hv)
    have hpair := (hq.sorted cmpint w horders).imp fun {a b} hab => (cmpint_le a b).mp hab
    exact (meets_accepted qsort hrange hle hsize hall hw (hq.perm cmpint w horders) hpair).mpr
      ⟨hplain,htells⟩

/-- parse_int_list is correct with every qsort of the C standard exactly if the size of args is
an int and one of two things holds. Where every token is accepted, each one is plain, the previous
content of nlist tells the duplicates, and there is one number only, since cmpint orders no two;
where a token is rejected, no choice of the numbers in front of it that could all be stored is
longer than args. -/
theorem parseIntList_iff (arg : List UInt8) (nlen : Int) (nlist : Nat → Int)
    (hrange : Range lo hi) (hle : lo ≤ hi) :
    (∀ qsort, IsQsort qsort → ∃ r, parseIntList qsort arg nlen nlist lo hi = some r ∧
      Meets arg nlist lo hi r) ↔
    hi-lo+1 ≤ INT_MAX ∧
      ((∀ f∈fields comma arg, number lo hi f≠none) →
        (∀ f∈fields comma arg, Plain lo hi f) ∧ Tells nlist (values lo hi (fields comma arg)) ∧
          ∀ u∈values lo hi (fields comma arg), ∀ v∈values lo hi (fields comma arg), u = v) ∧
      ((∃ f∈fields comma arg, number lo hi f = none) → ∀ w : List Int,
        w.Sublist (values lo hi (fields comma arg)) → Stored nlist 0 w → w.length ≤ hi-lo+1) := by
  by_cases hsize : hi-lo+1 ≤ INT_MAX
  · by_cases hall : ∀ f∈fields comma arg, number lo hi f≠none
    · have hex : ¬∃ f∈fields comma arg, number lo hi f = none := by
        rintro ⟨f,hf,hnone⟩
        exact hall f hf hnone
      rw [meets_standard hrange hle hsize hall]
      exact ⟨fun h => ⟨hsize,fun _ => h,fun he => absurd he hex⟩,fun h => h.2.1 hall⟩
    · have hex : ∃ f∈fields comma arg, number lo hi f = none := by
        by_contra hnot
        exact hall fun f hf hnone => hnot ⟨f,hf,hnone⟩
      constructor
      · intro h
        have hmeets := h sortBy isQsort_sortBy
        rw [meets_rejected sortBy hrange hle hsize hall] at hmeets
        exact ⟨hsize,fun ha => absurd ha hall,fun _ => hmeets⟩
      · intro h qsort _
        rw [meets_rejected qsort hrange hle hsize hall]
        exact h.2.2 hex
  · constructor
    · intro h
      obtain ⟨r,hr,-⟩ := h sortBy isQsort_sortBy
      rw [parseIntList, if_pos (by omega)] at hr
      cases hr
    · intro h
      exact absurd h.1 hsize

/-- The cores of -c 2,2, after -c 2. -/
theorem parseIntList_twice : (∃ qsort, IsQsort qsort) ∧ ∀ qsort, IsQsort qsort →
    ∃ r, parseIntList qsort [50,44,50] 1 (fun j => if j = 0 then 2 else 0) 1 32 = some r ∧
      Meets [50,44,50] (fun j => if j = 0 then 2 else 0) 1 32 r := by
  have hfields : fields comma [50,44,50] = [[50],[50]] := by decide
  have hvalues : values 1 32 [[50],[50]] = [2,2] := by decide
  refine ⟨⟨sortBy,isQsort_sortBy⟩,?_⟩
  rw [parseIntList_iff _ _ _ ⟨by decide,by decide⟩ (by decide), hfields]
  refine ⟨by decide,fun _ => ⟨?_,?_,?_⟩,fun hnone => ?_⟩
  · intro f hf
    refine ⟨?_,?_⟩
    · simp only [List.mem_cons, List.not_mem_nil, or_false, or_self] at hf
      subst hf
      simp [isspace]
    · revert f
      decide
  · rw [hvalues, Tells]
    simp [forall_splits_cons]
  · rw [hvalues]
    simp
  · exact absurd hnone (by decide)

/-- The default of core_list is 1, so the 1 of -c 2,1 is taken for a duplicate. -/
theorem parseIntList_default : (∃ qsort, IsQsort qsort) ∧ ∀ qsort, IsQsort qsort →
    ¬∃ r, parseIntList qsort [50,44,49] 1 (fun j => if j = 0 then 1 else 0) 1 32 = some r ∧
      Meets [50,44,49] (fun j => if j = 0 then 1 else 0) 1 32 r := by
  refine ⟨⟨sortBy,isQsort_sortBy⟩,fun qsort hq => ?_⟩
  have horders : Orders cmpint [2] := (orders_cmpint_iff _).mpr (by simp)
  rw [meets_accepted qsort ⟨by decide,by decide⟩ (by decide) (by decide) (by decide)
    (w := [2]) (by decide) (hq.perm cmpint _ horders)
    ((hq.sorted cmpint _ horders).imp fun {a b} hab => (cmpint_le a b).mp hab)]
  rintro ⟨-,h⟩
  have hone := h [2] 1 [] (by decide)
  revert hone
  decide

end
end
end TinyOS.Testing
