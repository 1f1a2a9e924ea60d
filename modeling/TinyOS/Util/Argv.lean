import Mathlib.Algebra.Group.Nat.Defs
import Mathlib.Data.List.Forall2

/-! The string vectors of util.h: argvlen, argvpack, argscount and argvunpack. Memory is
read by address, a buffer is the list of its bytes, and a pointer into a buffer is what
the buffer holds from there on. Running off a buffer or out of memory is none. -/
namespace TinyOS.Argv

abbrev Memory := Nat → UInt8

/-- No loop over a string is longer than the address space. -/
abbrev ADDRESS_SPACE : Nat := 2^64

def strlen (mem : Memory) : Nat → Nat → Option Nat
  | 0, _ => none
  | fuel+1, s => if mem s = 0 then some 0 else (strlen mem fuel (s+1)).map (·+1)

def argvlen (mem : Memory) : List Nat → Option Nat
  | [] => some 0
  | s::argv => (strlen mem ADDRESS_SPACE s).bind fun n => (argvlen mem argv).map (n+1+·)

def store (args : List UInt8) (pos : Nat) (b : UInt8) : Option (List UInt8) :=
  if pos<args.length then some (args.set pos b) else none

/-- while(( *pos++ = *s++ )) argl++ -/
def packString (mem : Memory) : Nat → List UInt8 → Nat → Nat → Nat → Option (List UInt8 × Nat × Nat)
  | 0, _, _, _, _ => none
  | fuel+1, args, pos, argl, s => (store args pos (mem s)).bind fun args =>
    if mem s = 0 then some (args,pos+1,argl) else packString mem fuel args (pos+1) (argl+1) (s+1)

/-- The loop of argvpack. -/
def packStrings (mem : Memory) : List UInt8 → Nat → Nat → List Nat → Option (List UInt8 × Nat)
  | args, _, argl, [] => some (args,argl)
  | args, pos, argl, s::argv => (packString mem ADDRESS_SPACE args pos argl s).bind
    fun (args,pos,argl) => packStrings mem args pos argl argv

/-- argvpack from pos on, with its return value. -/
def argvpack (mem : Memory) (args : List UInt8) (pos : Nat) (argv : List Nat) :
    Option (List UInt8 × Nat) :=
  (packStrings mem args pos 0 argv).map fun (args,argl) => (args,argl+argv.length)

def argscount : Nat → List UInt8 → Option Nat
  | 0, _ => some 0
  | _+1, [] => none
  | argl+1, b::a => (argscount argl a).map fun n => if b = 0 then n+1 else n

/-- while( *a++ ) -/
def skipString : List UInt8 → Option (List UInt8)
  | [] => none
  | b::a => if b = 0 then some a else skipString a

def argvunpack : Nat → List UInt8 → Option (List (List UInt8) × List UInt8)
  | 0, a => some ([],a)
  | argc+1, a => (skipString a).bind fun a' => (argvunpack argc a').map
    fun (argv,rest) => (a::argv,rest)

def cString (a : List UInt8) : List UInt8 := a.takeWhile (·≠0)

def StringAt (mem : Memory) : Nat → List UInt8 → Prop
  | s, [] => mem s = 0
  | s, b::str => b≠0 ∧ mem s = b ∧ StringAt mem (s+1) str

def packed (strs : List (List UInt8)) : List UInt8 := strs.flatMap (·++[0])

section
variable {mem : Memory} {s : Nat} {str : List UInt8}

theorem StringAt.ne_zero (h : StringAt mem s str) : ∀ b∈str, b≠0 := by
  induction str generalizing s with
  | nil => simp
  | cons b str ih =>
    obtain ⟨hb,-,hs⟩ := h
    simpa [hb] using ih hs

theorem strlen_eq (h : StringAt mem s str) {fuel : Nat} (hf : str.length<fuel) :
    strlen mem fuel s = some str.length := by
  induction str generalizing s fuel with
  | nil =>
    cases fuel with
    | zero => simp at hf
    | succ fuel =>
      have h0 : mem s = 0 := h
      simp [strlen, h0]
  | cons b str ih =>
    obtain ⟨hb,hm,hs⟩ := h
    cases fuel with
    | zero => simp at hf
    | succ fuel =>
      simp only [List.length_cons] at hf
      rw [strlen, if_neg (hm ▸ hb), ih hs (by omega)]
      rfl

theorem strlen_none (h : StringAt mem s str) {fuel : Nat} (hf : fuel ≤ str.length) :
    strlen mem fuel s = none := by
  induction str generalizing s fuel with
  | nil =>
    have h0 : fuel = 0 := by simpa using hf
    subst h0
    rfl
  | cons b str ih =>
    obtain ⟨hb,hm,hs⟩ := h
    cases fuel with
    | zero => rfl
    | succ fuel =>
      simp only [List.length_cons] at hf
      rw [strlen, if_neg (hm ▸ hb), ih hs (by omega)]
      rfl

theorem store_append (pre rest : List UInt8) (x b : UInt8) :
    store (pre++x::rest) pre.length b = some (pre++[b]++rest) := by
  rw [store, if_pos (by simp)]
  simp

theorem packString_eq (h : StringAt mem s str) {fuel : Nat} (hf : str.length<fuel)
    (pre rest : List UInt8) (argl : Nat) (hr : str.length < rest.length) :
    packString mem fuel (pre++rest) pre.length argl s = some (pre++(str++[0])++rest.drop (str.length+1),
      pre.length+(str.length+1),argl+str.length) := by
  induction str generalizing s fuel pre rest argl with
  | nil =>
    cases fuel with
    | zero => simp at hf
    | succ fuel =>
      have h0 : mem s = 0 := h
      cases rest with
      | nil => simp at hr
      | cons x rest =>
        rw [packString, store_append]
        simp [h0]
  | cons b str ih =>
    obtain ⟨hb,hm,hs⟩ := h
    cases fuel with
    | zero => simp at hf
    | succ fuel =>
      cases rest with
      | nil => simp at hr
      | cons x rest =>
        simp only [List.length_cons] at hf hr
        have hlen : (pre++[b]).length = pre.length+1 := by simp
        rw [packString, store_append, Option.bind_some, if_neg (hm ▸ hb), hm, ← hlen,
          ih hs (by omega) (pre++[b]) rest _ (by omega)]
        simp [Nat.add_assoc, Nat.add_comm 1]

end

theorem strings_ne_zero {mem : Memory} {argv : List Nat} {strs : List (List UInt8)}
    (h : List.Forall₂ (StringAt mem) argv strs) : ∀ str∈strs, ∀ b∈str, b≠0 := by
  induction h with
  | nil => simp
  | cons hstr _ ih => exact List.forall_mem_cons.mpr ⟨hstr.ne_zero,ih⟩

theorem packed_cons (str : List UInt8) (strs : List (List UInt8)) :
    packed (str::strs) = str++[0]++packed strs := by
  simp [packed]

theorem packed_append (strs strs' : List (List UInt8)) :
    packed (strs++strs') = packed strs++packed strs' :=
  List.flatMap_append

section
variable {mem : Memory} {argv : List Nat} {strs : List (List UInt8)}

theorem argvlen_sum (h : List.Forall₂ (StringAt mem) argv strs)
    (hs : ∀ str∈strs, str.length<ADDRESS_SPACE) :
    argvlen mem argv = some (packed strs).length := by
  induction h with
  | nil => rfl
  | cons hstr hrest ih =>
    rw [argvlen, strlen_eq hstr (hs _ List.mem_cons_self), Option.bind_some,
      ih fun x hx => hs x (List.mem_cons_of_mem _ hx), packed_cons]
    simp [Nat.add_assoc, Nat.add_comm 1]

theorem argvlen_none (h : List.Forall₂ (StringAt mem) argv strs)
    (hs : ∃ str∈strs, ADDRESS_SPACE ≤ str.length) : argvlen mem argv = none := by
  induction h with
  | nil => simp at hs
  | @cons s str argv strs hstr hrest ih =>
    by_cases hlen : ADDRESS_SPACE ≤ str.length
    · rw [argvlen, strlen_none hstr hlen]
      rfl
    · have htail : ∃ str∈strs, ADDRESS_SPACE ≤ str.length := by simpa [hlen] using hs
      rw [argvlen, strlen_eq hstr (Nat.lt_of_not_le hlen), Option.bind_some, ih htail]
      rfl

theorem length_lt_packed {str : List UInt8} (h : str∈strs) : str.length<(packed strs).length := by
  induction strs with
  | nil => cases h
  | cons x strs ih =>
    rw [packed_cons, List.length_append, List.length_append, List.length_singleton]
    cases List.mem_cons.mp h with
    | inl he =>
      subst he
      omega
    | inr hm =>
      have := ih hm
      omega

theorem argvlen_eq (h : List.Forall₂ (StringAt mem) argv strs)
    (hs : (packed strs).length<ADDRESS_SPACE) :
    argvlen mem argv = some (packed strs).length :=
  argvlen_sum h fun _ hm => Nat.lt_trans (length_lt_packed hm) hs

theorem packString_none {s : Nat} {str : List UInt8} (h : StringAt mem s str) {fuel : Nat}
    (hf : str.length<fuel) {args : List UInt8} {pos : Nat} (argl : Nat)
    (hr : args.length<pos+(str.length+1)) : packString mem fuel args pos argl s = none := by
  induction str generalizing s fuel args pos argl with
  | nil =>
    obtain ⟨fuel,rfl⟩ := Nat.exists_eq_succ_of_ne_zero (Nat.ne_of_gt hf)
    have hpos : ¬pos<args.length := by
      simp only [List.length_nil] at hr
      omega
    rw [packString, store, if_neg hpos]
    rfl
  | cons b str ih =>
    obtain ⟨hb,hm,hs⟩ := h
    obtain ⟨fuel,rfl⟩ := Nat.exists_eq_succ_of_ne_zero (Nat.ne_of_gt (Nat.zero_lt_of_lt hf))
    simp only [List.length_cons] at hf hr
    by_cases hpos : pos<args.length
    · rw [packString, store, if_pos hpos, Option.bind_some, if_neg (hm ▸ hb)]
      refine ih hs (by omega) (argl+1) ?_
      rw [List.length_set]
      omega
    · rw [packString, store, if_neg hpos]
      rfl

theorem packStrings_none (h : List.Forall₂ (StringAt mem) argv strs)
    (hs : ∀ str∈strs, str.length<ADDRESS_SPACE) {args : List UInt8} {pos : Nat} (argl : Nat)
    (hpos : pos≤args.length) (hr : args.length<pos+(packed strs).length) :
    packStrings mem args pos argl argv = none := by
  induction h generalizing args pos argl with
  | nil =>
    simp only [packed, List.flatMap_nil, List.length_nil] at hr
    omega
  | @cons s str argv strs hstr hrest ih =>
    have hlen : str.length<ADDRESS_SPACE := hs str List.mem_cons_self
    rw [packed_cons, List.length_append, List.length_append, List.length_singleton] at hr
    by_cases hfit : args.length<pos+(str.length+1)
    · rw [packStrings, packString_none hstr hlen argl hfit]
      rfl
    · have hpack := packString_eq hstr hlen (args.take pos) (args.drop pos) argl
        (by rw [List.length_drop]; omega)
      rw [List.take_append_drop, List.length_take, Nat.min_eq_left hpos, List.drop_drop] at hpack
      rw [packStrings, hpack, Option.bind_some]
      refine ih (fun x hx => hs x (List.mem_cons_of_mem _ hx)) _ ?_ ?_
      · simp only [List.length_append, List.length_take, List.length_drop, List.length_singleton]
        omega
      · simp only [List.length_append, List.length_take, List.length_drop, List.length_singleton]
        omega

theorem argvpack_none (h : List.Forall₂ (StringAt mem) argv strs)
    (hs : ∀ str∈strs, str.length<ADDRESS_SPACE) {args : List UInt8}
    (hr : args.length<(packed strs).length) : argvpack mem args 0 argv = none := by
  rw [argvpack, packStrings_none h hs 0 (Nat.zero_le _) (by omega)]
  rfl

theorem packStrings_eq (h : List.Forall₂ (StringAt mem) argv strs)
    (hs : (packed strs).length<ADDRESS_SPACE) (pre rest : List UInt8) (argl : Nat)
    (hr : (packed strs).length ≤ rest.length) :
    ∃ n, packStrings mem (pre++rest) pre.length argl argv =
        some (pre++packed strs++rest.drop (packed strs).length,n) ∧
      n+argv.length = argl+(packed strs).length := by
  induction h generalizing pre rest argl with
  | nil => exact ⟨argl,by simp [packStrings, packed],by simp [packed]⟩
  | @cons s str argv strs hstr hrest ih =>
    rw [packed_cons, List.length_append, List.length_append, List.length_singleton] at hs hr
    have hlen : pre.length+(str.length+1) = (pre++(str++[0])).length := by simp
    obtain ⟨n,hn,hlast⟩ := ih (by omega) (pre++(str++[0])) (rest.drop (str.length+1)) (argl+str.length)
      (by rw [List.length_drop]; omega)
    refine ⟨n,?_,?_⟩
    · rw [packStrings, packString_eq hstr (by omega) pre rest argl (by omega), Option.bind_some, hlen]
      refine hn.trans ?_
      simp only [packed_cons, List.append_assoc, List.length_append, List.length_singleton,
        List.drop_drop, Nat.add_assoc]
    · rw [packed_cons, List.length_append, List.length_append, List.length_singleton, List.length_cons]
      omega

theorem argvpack_eq (h : List.Forall₂ (StringAt mem) argv strs)
    (hs : (packed strs).length<ADDRESS_SPACE)
    (pre rest : List UInt8) (hr : (packed strs).length ≤ rest.length) :
    argvpack mem (pre++rest) pre.length argv =
      some (pre++packed strs++rest.drop (packed strs).length,(packed strs).length) := by
  obtain ⟨n,hn,hlast⟩ := packStrings_eq h hs pre rest 0 hr
  rw [argvpack, hn, Option.map_some]
  rw [Nat.zero_add] at hlast
  simp only [hlast]

end

theorem argscount_append (str a : List UInt8) (h : ∀ b∈str, b≠0) (n : Nat) :
    argscount (str.length+n) (str++a) = argscount n a := by
  induction str with
  | nil => simp
  | cons b str ih =>
    have hb : b≠0 := h b (by simp)
    rw [List.length_cons, show str.length+1+n = (str.length+n)+1 by
      omega, List.cons_append, argscount,
      ih fun c hc => h c (by simp [hc])]
    simp [hb]

theorem argscount_packed {strs : List (List UInt8)} (h : ∀ str∈strs, ∀ b∈str, b≠0) :
    argscount (packed strs).length (packed strs) = some strs.length := by
  induction strs with
  | nil => rfl
  | cons str strs ih =>
    have hlen : (packed (str::strs)).length = str.length+((packed strs).length+1) := by
      rw [packed_cons]
      simp only [List.length_append, List.length_singleton]
      omega
    rw [hlen, packed_cons, List.append_assoc, argscount_append str _ (h str (by simp)),
      List.singleton_append, argscount, ih fun x hx => h x (by simp [hx])]
    simp

theorem skipString_append {str : List UInt8} (h : ∀ b∈str, b≠0) (a : List UInt8) :
    skipString (str++0::a) = some a := by
  induction str with
  | nil => simp [skipString]
  | cons b str ih =>
    have hb : b≠0 := h b (by simp)
    rw [List.cons_append, skipString, if_neg hb, ih fun c hc => h c (by simp [hc])]

theorem cString_append {str : List UInt8} (h : ∀ b∈str, b≠0) (a : List UInt8) :
    cString (str++0::a) = str := by
  induction str with
  | nil => simp [cString]
  | cons b str ih =>
    have hb : b≠0 := h b (by simp)
    rw [cString] at ih ⊢
    rw [List.cons_append, List.takeWhile_cons_of_pos (by simpa using hb),
      ih fun c hc => h c (by simp [hc])]

theorem argvunpack_packed {strs : List (List UInt8)} (h : ∀ str∈strs, ∀ b∈str, b≠0)
    (a : List UInt8) :
    ∃ argv, argvunpack strs.length (packed strs++a) = some (argv,a) ∧ argv.map cString = strs := by
  induction strs with
  | nil => exact ⟨[],rfl,rfl⟩
  | cons str strs ih =>
    obtain ⟨argv,hargv,hmap⟩ := ih fun x hx => h x (by simp [hx])
    have hstr : ∀ b∈str, b≠0 := h str (by simp)
    have he : packed (str::strs)++a = str++0::(packed strs++a) := by simp [packed_cons]
    refine ⟨(str++0::(packed strs++a))::argv,?_,?_⟩
    · rw [he, List.length_cons, argvunpack, skipString_append hstr, Option.bind_some, hargv]
      rfl
    · rw [List.map_cons, cString_append hstr, hmap]

theorem argscount_count {n : Nat} {a : List UInt8} (h : n≤a.length) :
    argscount n a = some ((a.take n).count 0) := by
  induction a generalizing n with
  | nil =>
    have hn : n = 0 := by simpa using h
    subst hn
    rfl
  | cons b a ih =>
    cases n with
    | zero => rfl
    | succ n =>
      rw [argscount, ih (by simpa using h), Option.map_some, List.take_succ_cons, List.count_cons]
      by_cases hb : b = 0 <;> simp [hb]

theorem skipString_eq {a : List UInt8} (h : 0∈a) :
    ∃ rest, skipString a = some rest ∧ a = cString a++0::rest ∧ (∀ b∈cString a, b≠0) ∧
      a.count 0 = rest.count 0+1 := by
  induction a with
  | nil => cases h
  | cons b a ih =>
    by_cases hb : b = 0
    · subst hb
      exact ⟨a,by simp [skipString],by simp [cString],by simp [cString],by simp⟩
    · obtain ⟨rest,hs,ha,hz,hc⟩ := ih (by simpa [Ne.symm hb] using h)
      have hcons : cString (b::a) = b::cString a := by
        rw [cString, List.takeWhile_cons_of_pos (by simpa using hb), ← cString]
      refine ⟨rest,by rw [skipString, if_neg hb, hs],?_,?_,?_⟩
      · rw [hcons, List.cons_append, ← ha]
      · rw [hcons]
        simpa [hb] using hz
      · rw [List.count_cons_of_ne (by simpa using hb), hc]

structure Unpacked (a : List UInt8) (argc : Nat) (argv : List (List UInt8)) (rest : List UInt8) :
    Prop where
  length : argv.length = argc
  split : a = packed (argv.map cString)++rest
  noZero : ∀ str∈argv.map cString, ∀ b∈str, b≠0
  pointers : ∀ p∈argv, 0∈p ∧ ∃ pre, a = pre++p

theorem argvunpack_eq {a : List UInt8} {argc : Nat} (h : argc≤a.count 0) :
    ∃ argv rest, argvunpack argc a = some (argv,rest) ∧ Unpacked a argc argv rest := by
  induction argc generalizing a with
  | zero => exact ⟨[],a,rfl,rfl,rfl,by simp,by simp⟩
  | succ argc ih =>
    have hmem : 0∈a := List.count_pos_iff.mp (by omega)
    obtain ⟨a',hs,ha,hz,hc⟩ := skipString_eq hmem
    obtain ⟨argv,rest,hargv,hu⟩ := ih (a := a') (by omega)
    refine ⟨a::argv,rest,by rw [argvunpack, hs, Option.bind_some, hargv]; rfl,?_,?_,?_,?_⟩
    · rw [List.length_cons, hu.length]
    · rw [List.map_cons, packed_cons, List.append_assoc, ← hu.split]
      simpa using ha
    · simpa using ⟨hz,by simpa using hu.noZero⟩
    · intro p hp
      cases List.mem_cons.mp hp with
      | inl hp => exact ⟨hp ▸ hmem,[],by rw [hp, List.nil_append]⟩
      | inr hp =>
        obtain ⟨hzero,pre,hpre⟩ := hu.pointers p hp
        refine ⟨hzero,cString a++0::pre,?_⟩
        rw [List.append_assoc, List.cons_append, ← hpre]
        exact ha

def BufferAt (mem : Memory) (base : Nat) (a : List UInt8) : Prop :=
  ∀ i (h : i<a.length), mem (base+i) = a[i]

theorem BufferAt.stringAt {mem : Memory} {base : Nat} {a : List UInt8} (h : BufferAt mem base a)
    (hz : 0∈a) : StringAt mem base (cString a) := by
  induction a generalizing base with
  | nil => cases hz
  | cons b a ih =>
    have h0 : mem base = b := h 0 (by simp)
    by_cases hb : b = 0
    · subst hb
      simpa [cString, StringAt] using h0
    · have htail : BufferAt mem (base+1) a := by
        intro i hi
        have := h (i+1) (by simpa using hi)
        rwa [List.getElem_cons_succ, ← Nat.add_assoc, Nat.add_right_comm] at this
      rw [cString, List.takeWhile_cons_of_pos (by simpa using hb), ← cString]
      exact ⟨hb,h0,ih htail (by simpa [Ne.symm hb] using hz)⟩

def address (base : Nat) (a p : List UInt8) : Nat := base+(a.length-p.length)

theorem BufferAt.pointer {mem : Memory} {base : Nat} {a p pre : List UInt8} (h : BufferAt mem base a)
    (hp : a = pre++p) : BufferAt mem (address base a p) p := by
  subst hp
  intro i hi
  have := h (pre.length+i) (by rw [List.length_append]; omega)
  rw [List.getElem_append_right (by omega)] at this
  rw [address, List.length_append, Nat.add_sub_cancel, Nat.add_assoc, this]
  simp

/-- Packing the strings that were unpacked gives back the bytes up to the last one's end. -/
theorem Unpacked.pack {mem : Memory} {base argc : Nat} {a rest : List UInt8} {argv : List (List UInt8)}
    (hu : Unpacked a argc argv rest) (h : BufferAt mem base a) (ha : a.length<ADDRESS_SPACE)
    (args : List UInt8) (hargs : a.length-rest.length≤args.length) :
    argvpack mem args 0 (argv.map (address base a)) =
      some (a.take (a.length-rest.length)++args.drop (a.length-rest.length),a.length-rest.length) := by
  have hstr : List.Forall₂ (StringAt mem) (argv.map (address base a)) (argv.map cString) := by
    refine List.forall₂_iff_get.mpr ⟨by simp,fun i h₁ h₂ => ?_⟩
    obtain ⟨hz,pre,hpre⟩ := hu.pointers (argv.get ⟨i,by simpa using h₁⟩) (List.get_mem _ _)
    simpa using (h.pointer hpre).stringAt hz
  have hlen : a.length-rest.length = (packed (argv.map cString)).length := by
    conv_lhs => rw [hu.split]
    simp
  have htake : a.take (a.length-rest.length) = packed (argv.map cString) := by
    rw [hlen]
    conv_lhs => rw [hu.split]
    exact List.take_left' rfl
  rw [htake, hlen]
  refine argvpack_eq hstr (by omega) [] args (by omega)

/-- argvpack and argvunpack are inverse to each other: on strings in memory, and on any
buffer with zeros enough. -/
theorem argv_inverse :
    (∀ (mem : Memory) (argv : List Nat) (strs : List (List UInt8)) (args : List UInt8),
      List.Forall₂ (StringAt mem) argv strs → (packed strs).length<2^31 →
      (packed strs).length≤args.length →
      argvlen mem argv = some (packed strs).length ∧
      argvpack mem args 0 argv =
        some (packed strs++args.drop (packed strs).length,(packed strs).length) ∧
      argscount (packed strs).length (packed strs) = some strs.length ∧
      ∃ ps, argvunpack strs.length (packed strs) = some (ps,[]) ∧ ps.map cString = strs) ∧
    ∀ (args : List UInt8) (n argc : Nat), args.length<2^31 →
      argscount args.length args = some n → argc≤n →
      ∃ ps rest, argvunpack argc args = some (ps,rest) ∧ Unpacked args argc ps rest ∧
        ∀ (mem : Memory) (base : Nat) (dest : List UInt8), BufferAt mem base args →
          args.length-rest.length≤dest.length →
          argvpack mem dest 0 (ps.map (address base args)) =
            some (args.take (args.length-rest.length)++dest.drop (args.length-rest.length),
              args.length-rest.length) := by
  have hspace : (2:Nat)^31<ADDRESS_SPACE := by decide
  refine ⟨fun mem argv strs args h hs hargs => ?_,fun args n argc hargs hn hargc => ?_⟩
  · have hzero := strings_ne_zero h
    obtain ⟨ps,hps,hmap⟩ := argvunpack_packed hzero []
    rw [List.append_nil] at hps
    exact ⟨argvlen_eq h (by omega),argvpack_eq h (by omega) [] args hargs,argscount_packed hzero,
      ps,hps,hmap⟩
  · rw [argscount_count (Nat.le_refl _), List.take_length, Option.some.injEq] at hn
    obtain ⟨ps,rest,hps,hu⟩ := argvunpack_eq (a := args) (hn ▸ hargc)
    exact ⟨ps,rest,hps,hu,fun mem base dest hb hdest => hu.pack hb (by omega) dest hdest⟩

/-- "hi" and the empty string are unpacked from a buffer with a byte behind them. -/
theorem argv_inverse_hi :
    (∃ ps, argvunpack 1 (packed [[104,105]]) = some (ps,[]) ∧ ps.map cString = [[104,105]]) ∧
    ∃ ps rest, argvunpack 2 [104,105,0,0,7] = some (ps,rest) ∧ Unpacked [104,105,0,0,7] 2 ps rest := by
  have hstr : List.Forall₂ (StringAt fun addr => if addr = 0 then 104 else if addr = 1 then 105 else 0)
      [0] [[104,105]] := by
    simp [StringAt]
  obtain ⟨-,-,-,hps⟩ := argv_inverse.1 _ [0] [[104,105]] [1,1,1] hstr (by decide) (by decide)
  obtain ⟨ps,rest,hu,hun,-⟩ := argv_inverse.2 [104,105,0,0,7] 2 2 (by decide) (by decide) (by decide)
  exact ⟨hps,ps,rest,hu,hun⟩

end TinyOS.Argv
