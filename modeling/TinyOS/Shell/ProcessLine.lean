import Mathlib.Algebra.Ring.Nat
import Mathlib.Data.List.Basic

/-! process_line: the tokens of a command line are split at the bars into the fragments of a
pipeline. The local arrays Vargc and Vargv have argc cells, without values at first. -/
namespace TinyOS.Shell
variable {α : Type*}

inductive Fault where
  | outOfBounds
  | uninitialised
  deriving DecidableEq

def load (a : List (Option α)) (i : Nat) : Except Fault α :=
  match a[i]? with
  | none => .error .outOfBounds
  | some none => .error .uninitialised
  | some (some x) => .ok x

def store (a : List (Option α)) (i : Nat) (x : α) : Except Fault (List (Option α)) :=
  if i < a.length then .ok (a.set i (some x)) else .error .outOfBounds

theorem store_eq {a : List (Option α)} {i : Nat} (hi : i < a.length) (x : α) :
    store a i x = .ok (a.set i (some x)) := by
  rw [store, if_pos hi]

@[simp] theorem load_set_self {a : List (Option α)} {i : Nat} (hi : i < a.length) (x : α) :
    load (a.set i (some x)) i = .ok x := by
  simp [load, hi]

@[simp] theorem load_set_of_ne (a : List (Option α)) {i j : Nat} (hij : i≠j) (x : α) :
    load (a.set i (some x)) j = load a j := by
  simp [load, hij]

/-- The local variables; a pointer Vargv[i] is an index into argv. -/
structure Frame where
  frag : Nat
  Vargc : List (Option Nat)
  Vargv : List (Option Nat)

/-- for(int i=0; i<argc; i++), from token i on -/
def splitLoop : List String → Nat → Frame → Except Fault Frame
  | [], _, f => .ok f
  | t::ts, i, f =>
    if t≠"|" then do
      let n ← load f.Vargc f.frag
      let Vargc ← store f.Vargc f.frag (n+1)
      let Vargv ← if n+1 = 1 then store f.Vargv f.frag i else .ok f.Vargv
      splitLoop ts (i+1) { f with Vargc := Vargc, Vargv := Vargv }
    else do
      let Vargc ← store f.Vargc (f.frag+1) 0
      splitLoop ts (i+1) { f with frag := f.frag+1, Vargc := Vargc }

/-- The frame after frag++. -/
def split (argv : List String) : Except Fault Frame := do
  let Vargc ← store (List.replicate argv.length none) 0 0
  let f ← splitLoop argv 0 ⟨0,Vargc,List.replicate argv.length none⟩
  .ok { f with frag := f.frag+1 }

/-- The pointer Vargv[i], with the reads of Vargv so far. -/
def readVargv (f : Frame) (reads : List Nat) (i : Nat) : Except Fault (Nat × List Nat) := do
  let p ← load f.Vargv i
  .ok (p,reads++[i])

def readToken (argv : List String) (p : Nat) : Except Fault String :=
  match argv[p]? with
  | none => .error .outOfBounds
  | some t => .ok t

/-- The check of the fragments: comd, or none where an error is printed. -/
def check (commands argv : List String) (f : Frame) :
    List Nat → List Nat → Except Fault (Option (List Nat) × List Nat)
  | reads, [] => .ok (some [],reads)
  | reads, i::is => do
    let n ← load f.Vargc i
    if n = 0 then .ok (none,reads)
    else do
      let (p,reads) ← readVargv f reads i
      let name ← readToken argv p
      match commands.findIdx? (· == name) with
      | none => .ok (none,reads)
      | some c => do
        let (comd,reads) ← check commands argv f reads is
        .ok (comd.map (c::·),reads)

/-- Execute(COMMANDS[comd[i]].prog, Vargc[i], Vargv[i]) for each fragment. -/
def launch (f : Frame) :
    List Nat → List (Nat × Nat) → Except Fault (List (Nat × Nat × Nat) × List Nat)
  | reads, [] => .ok ([],reads)
  | reads, (i,c)::is => do
    let n ← load f.Vargc i
    let (p,reads) ← readVargv f reads i
    let (children,reads) ← launch f reads is
    .ok ((c,n,p)::children,reads)

/-- WaitChild for each fragment, with a message where exitval is not 0. -/
def await (argv : List String) (f : Frame) (exitval : Nat → Int) :
    List Nat → List Nat → Except Fault (List Nat)
  | reads, [] => .ok reads
  | reads, i::is =>
    if exitval i≠0 then do
      let (p,reads) ← readVargv f reads i
      let _ ← readToken argv p
      await argv f exitval reads is
    else await argv f exitval reads is

/-- What is executed, and the indices at which Vargv has been read. -/
structure Outcome where
  children : List (Nat × Nat × Nat)
  reads : List Nat

def processLine (commands : List String) (exitval : Nat → Int) (argv : List String) :
    Except Fault (Frame × Outcome) := do
  let f ← split argv
  let (comd,reads) ← check commands argv f [] (List.range f.frag)
  match comd with
  | none => .ok (f,⟨[],reads⟩)
  | some comd => do
    let (children,reads) ← launch f reads ((List.range f.frag).zip comd)
    let reads ← await argv f exitval reads (List.range f.frag)
    .ok (f,⟨children,reads⟩)

/-! The fragments are the segments between bars. -/

/-- From cell i on the frame holds the segments, which begin at token p. -/
def Frame.Holds (f : Frame) : Nat → Nat → List (List String) → Prop
  | _, _, [] => True
  | i, p, seg::segs => load f.Vargc i = .ok seg.length ∧
      (seg≠[] → load f.Vargv i = .ok p) ∧ f.Holds (i+1) (p+seg.length+1) segs

def Frame.Same (f f' : Frame) (i : Nat) : Prop :=
  ∀ j < i, load f'.Vargc j = load f.Vargc j ∧ load f'.Vargv j = load f.Vargv j

theorem Frame.Same.trans {f f' f'' : Frame} {i k : Nat} (h : f.Same f' i) (h' : f'.Same f'' k)
    (hik : i ≤ k) : f.Same f'' i := by
  intro j hj
  obtain ⟨hc,hv⟩ := h' j (Nat.lt_of_lt_of_le hj hik)
  exact ⟨hc.trans (h j hj).1,hv.trans (h j hj).2⟩

theorem splitLoop_token {t : String} (ht : t≠"|") (ts : List String) {i n : Nat} {f : Frame}
    (hlen : f.Vargv.length = f.Vargc.length) (hf : f.frag < f.Vargc.length)
    (hc : load f.Vargc f.frag = .ok n) (hv : n≠0 → load f.Vargv f.frag = .ok (i-n)) :
    ∃ f', splitLoop (t::ts) i f = splitLoop ts (i+1) f' ∧ f'.frag = f.frag ∧
      f.Same f' f.frag ∧ f'.Vargc.length = f.Vargc.length ∧
      f'.Vargv.length = f.Vargv.length ∧ load f'.Vargc f.frag = .ok (n+1) ∧
      load f'.Vargv f.frag = .ok (i-n) := by
  have hf' : f.frag < f.Vargv.length := hlen.symm ▸ hf
  by_cases hn : n = 0
  · subst hn
    refine ⟨{ f with
      Vargc := f.Vargc.set f.frag (some 1)
      Vargv := f.Vargv.set f.frag (some i) },?_,rfl,fun j hj => ?_,by simp,by simp,?_,?_⟩
    · simp [splitLoop, ht, hc, store_eq hf, store_eq hf', Bind.bind, Except.bind]
    · have hne : f.frag≠j := Nat.ne_of_gt hj
      exact ⟨load_set_of_ne _ hne _,load_set_of_ne _ hne _⟩
    · exact load_set_self hf 1
    · exact load_set_self hf' i
  · refine ⟨{ f with Vargc := f.Vargc.set f.frag (some (n+1)) },?_,rfl,fun j hj => ?_,by simp,
      rfl,load_set_self hf (n+1),hv hn⟩
    · simp [splitLoop, ht, hc, hn, store_eq hf, Bind.bind, Except.bind]
    · exact ⟨load_set_of_ne _ (Nat.ne_of_gt hj) _,rfl⟩

theorem splitLoop_bar (ts : List String) (i : Nat) {f : Frame} (hf : f.frag+1 < f.Vargc.length) :
    splitLoop ("|"::ts) i f =
      splitLoop ts (i+1) ⟨f.frag+1,f.Vargc.set (f.frag+1) (some 0),f.Vargv⟩ := by
  simp [splitLoop, store_eq hf, Bind.bind, Except.bind]

theorem splitLoop_holds (ts cur : List String) (i : Nat) (f : Frame)
    (hcur : "|"∉cur) (hi : cur.length ≤ i) (hlen : f.Vargv.length = f.Vargc.length)
    (hroom : f.frag+ts.count "|" < f.Vargc.length)
    (hc : load f.Vargc f.frag = .ok cur.length)
    (hv : cur≠[] → load f.Vargv f.frag = .ok (i-cur.length)) :
    ∃ f', splitLoop ts i f = .ok f' ∧ f'.frag = f.frag+ts.count "|" ∧ f.Same f' f.frag ∧
      f'.Holds f.frag (i-cur.length) ((cur++ts).splitOn "|") := by
  induction ts generalizing cur i f with
  | nil =>
    refine ⟨f,rfl,rfl,fun _ _ => ⟨rfl,rfl⟩,?_⟩
    rw [List.append_nil, List.splitOn_eq_singleton hcur]
    exact ⟨hc,hv,trivial⟩
  | cons t ts ih =>
    have hf : f.frag < f.Vargc.length := Nat.lt_of_le_of_lt (Nat.le_add_right _ _) hroom
    by_cases ht : t = "|"
    · subst ht
      rw [List.count_cons_self] at hroom
      have hnext : f.frag+1 < f.Vargc.length := by omega
      obtain ⟨f',hrun,hfrag,hsame,hholds⟩ := ih [] (i+1)
        ⟨f.frag+1,f.Vargc.set (f.frag+1) (some 0),f.Vargv⟩
        nofun (Nat.zero_le _) (by simpa using hlen) (by simp; omega) (by simp [hnext]) nofun
      have hkeep : f.Same f' (f.frag+1) := by
        intro j hj
        obtain ⟨h1,h2⟩ := hsame j hj
        exact ⟨h1.trans (load_set_of_ne _ (Nat.ne_of_gt hj) _),h2⟩
      refine ⟨f',?_,by simp [hfrag]; omega,fun j hj => hkeep j (by omega),?_⟩
      · rw [splitLoop_bar ts i hnext]
        exact hrun
      · rw [List.splitOn_append_cons_self_of_not_mem hcur]
        obtain ⟨h1,h2⟩ := hkeep f.frag (Nat.lt_succ_self _)
        refine ⟨h1.trans hc,fun hne => h2.trans (hv hne),?_⟩
        have hp : i-cur.length+cur.length+1 = i+1-([] : List String).length := by
          simp only [List.length_nil]
          omega
        rw [hp]
        exact hholds
    · rw [List.count_cons_of_ne ht] at hroom
      obtain ⟨f1,hstep,hfrag1,hsame1,hlc,hlv,hc1,hv1⟩ := splitLoop_token ht ts (i := i) hlen hf hc
        fun hn => hv (List.ne_nil_of_length_pos (Nat.pos_of_ne_zero hn))
      have hcur' : "|"∉cur++[t] := by simp [hcur, Ne.symm ht]
      have hpos : i+1-(cur++[t]).length = i-cur.length := by
        simp only [List.length_append, List.length_singleton]
        omega
      obtain ⟨f',hrun,hfrag,hsame,hholds⟩ := ih (cur++[t]) (i+1) f1 hcur'
        (by simpa using hi) (by omega) (by omega) (by simpa [hfrag1] using hc1)
        (fun _ => by rw [hpos, hfrag1]; exact hv1)
      rw [hfrag1] at hfrag hsame hholds
      refine ⟨f',hstep.trans hrun,by rw [hfrag, List.count_cons_of_ne ht],
        hsame1.trans hsame (Nat.le_refl _),?_⟩
      rw [hpos, List.append_assoc, List.singleton_append] at hholds
      exact hholds

theorem splitLoop_fault {ts : List String} (hts : ∀ t∈ts, t = "|") (i : Nat) {f : Frame}
    (hf : f.frag < f.Vargc.length) (hroom : f.Vargc.length ≤ f.frag+ts.length) :
    splitLoop ts i f = .error .outOfBounds := by
  induction ts generalizing i f with
  | nil => exact absurd hroom (by simpa using hf)
  | cons t ts ih =>
    have ht : t = "|" := hts t List.mem_cons_self
    subst ht
    by_cases hnext : f.frag+1 < f.Vargc.length
    · rw [splitLoop_bar ts i hnext]
      apply ih (fun t hm => hts t (List.mem_cons_of_mem _ hm))
      · simpa using hnext
      · simp only [List.length_set, List.length_cons] at hroom ⊢
        omega
    · simp [splitLoop, store, hnext, Bind.bind, Except.bind]

theorem length_splitOn (l : List String) : (l.splitOn "|").length = l.count "|"+1 := by
  induction l with
  | nil => rfl
  | cons t l ih =>
    rw [List.splitOn_cons_eq_if_modifyHead]
    by_cases ht : t = "|"
    · simp [ht, ih]
    · simp [ht, ih]

theorem intercalate_drop {segs : List (List String)} {k : Nat} {seg : List String}
    (hk : segs[k]? = some seg) :
    ∃ post, (["|"].intercalate segs).drop ((segs.take k).map (·.length+1)).sum = seg++post := by
  induction segs generalizing k with
  | nil => simp at hk
  | cons a segs ih =>
    cases k with
    | zero =>
      have ha : a = seg := by simpa using hk
      subst ha
      cases segs with
      | nil => exact ⟨[],by simp [List.intercalate]⟩
      | cons b segs =>
        exact ⟨["|"]++["|"].intercalate (b::segs),by simp [List.intercalate_cons_cons]⟩
    | succ k =>
      obtain ⟨post,hpost⟩ := ih hk
      cases segs with
      | nil => simp at hk
      | cons b segs =>
        have ha : (((a::b::segs).take (k+1)).map (·.length+1)).sum =
            (a++["|"]).length+(((b::segs).take k).map (·.length+1)).sum := by simp
        refine ⟨post,?_⟩
        rw [List.intercalate_cons_cons, ha, List.drop_length_add_append, hpost]

theorem Frame.Holds.counted {f : Frame} {i p : Nat} {segs : List (List String)}
    (h : f.Holds i p segs) (frag : Nat) : Frame.Holds { f with frag := frag } i p segs := by
  induction segs generalizing i p with
  | nil => trivial
  | cons a segs ih => exact ⟨h.1,h.2.1,ih h.2.2⟩

theorem Frame.Holds.get {f : Frame} {i p : Nat} {segs : List (List String)}
    (h : f.Holds i p segs) {k : Nat} {seg : List String} (hk : segs[k]? = some seg) :
    load f.Vargc (i+k) = .ok seg.length ∧
      (seg≠[] → load f.Vargv (i+k) = .ok (p+((segs.take k).map (·.length+1)).sum)) := by
  induction segs generalizing i p k with
  | nil => simp at hk
  | cons a segs ih =>
    obtain ⟨hc,hv,hrest⟩ := h
    cases k with
    | zero =>
      have ha : a = seg := by simpa using hk
      subst ha
      exact ⟨hc,hv⟩
    | succ k =>
      have hnext := ih hrest hk
      have hi : i+1+k = i+(k+1) := by omega
      have hp : p+a.length+1+((segs.take k).map (·.length+1)).sum =
          p+(((a::segs).take (k+1)).map (·.length+1)).sum := by
        simp only [List.take_succ_cons, List.map_cons, List.sum_cons]
        omega
      rw [hi, hp] at hnext
      exact hnext

theorem split_holds {argv : List String} (h : ∃ t∈argv, t≠"|") :
    ∃ f, split argv = .ok f ∧ f.frag = (argv.splitOn "|").length ∧
      f.Holds 0 0 (argv.splitOn "|") := by
  have hcount : argv.count "|" < argv.length := by
    apply Nat.lt_of_le_of_ne List.count_le_length
    intro he
    obtain ⟨t,ht,hne⟩ := h
    exact hne (List.count_eq_length.mp he t ht).symm
  have hpos : 0 < argv.length := Nat.zero_lt_of_lt hcount
  have h0 : 0 < (List.replicate argv.length (none : Option Nat)).length := by simpa using hpos
  obtain ⟨f,hrun,hfrag,-,hholds⟩ := splitLoop_holds argv [] 0
    ⟨0,(List.replicate argv.length none).set 0 (some 0),List.replicate argv.length none⟩
    nofun (Nat.le_refl _) (by simp) (by simpa using hcount) (load_set_self h0 0) nofun
  refine ⟨{ f with frag := f.frag+1 },?_,?_,hholds.counted _⟩
  · simp only [split, store_eq h0, Bind.bind, Except.bind, hrun]
  · rw [length_splitOn, hfrag]
    simp

theorem split_fault {argv : List String} (h : ∀ t∈argv, t = "|") :
    split argv = .error .outOfBounds := by
  cases hargv : argv with
  | nil => rfl
  | cons t ts =>
    rw [← hargv]
    have h0 : 0 < (List.replicate argv.length (none : Option Nat)).length := by simp [hargv]
    have hrun := splitLoop_fault h 0 (f :=
      ⟨0,(List.replicate argv.length none).set 0 (some 0),List.replicate argv.length none⟩)
      (by simpa using h0) (by simp)
    simp only [split, store_eq h0, Bind.bind, Except.bind, hrun]

/-! What comes behind reads the frame only. -/

def Full (argv : List String) (f : Frame) (i : Nat) : Prop :=
  ∃ n p name, load f.Vargc i = .ok n ∧ 0 < n ∧ load f.Vargv i = .ok p ∧ argv[p]? = some name

theorem mem_reads {argv : List String} {f : Frame} {reads : List Nat} {i j : Nat}
    (hi : Full argv f i) (hj : j∈reads++[i]) : j∈reads ∨ Full argv f j := by
  cases List.mem_append.mp hj with
  | inl hj => exact .inl hj
  | inr hj =>
    rw [List.mem_singleton.mp hj]
    exact .inr hi

theorem check_ok {argv : List String} {f : Frame} (commands : List String) {is : List Nat}
    (h : ∀ i∈is, load f.Vargc i = .ok 0 ∨ Full argv f i) (reads : List Nat) :
    ∃ comd reads', check commands argv f reads is = .ok (comd,reads') ∧
      (∀ i∈reads', i∈reads ∨ Full argv f i) ∧ (comd.isSome = true → ∀ i∈is, Full argv f i) := by
  induction is generalizing reads with
  | nil => exact ⟨some [],reads,rfl,fun i hi => .inl hi,fun _ => nofun⟩
  | cons i is ih =>
    cases h i List.mem_cons_self with
    | inl h0 =>
      refine ⟨none,reads,?_,fun i hi => .inl hi,nofun⟩
      simp [check, h0, Bind.bind, Except.bind]
    | inr hfull =>
      obtain ⟨n,p,name,hn,hpos,hp,hname⟩ := id hfull
      have hne : n≠0 := Nat.ne_of_gt hpos
      have hmem : ∀ j∈reads++[i], j∈reads ∨ Full argv f j := fun j => mem_reads hfull
      cases hc : commands.findIdx? (· == name) with
      | none =>
        refine ⟨none,reads++[i],?_,hmem,nofun⟩
        simp [check, hn, hne, readVargv, hp, readToken, hname, hc, Bind.bind, Except.bind]
      | some c =>
        obtain ⟨comd,reads',hrun,hreads,hsome⟩ :=
          ih (fun j hj => h j (List.mem_cons_of_mem i hj)) (reads++[i])
        refine ⟨comd.map (c::·),reads',?_,fun j hj => ?_,fun hs j hj => ?_⟩
        · simp [check, hn, hne, readVargv, hp, readToken, hname, hc, hrun, Bind.bind,
            Except.bind]
        · exact (hreads j hj).elim (hmem j) .inr
        · cases List.mem_cons.mp hj with
          | inl he => exact he ▸ hfull
          | inr hj => exact hsome (by simpa using hs) j hj

theorem launch_ok {argv : List String} {f : Frame} {is : List (Nat × Nat)}
    (h : ∀ x∈is, Full argv f x.1) (reads : List Nat) :
    ∃ children reads', launch f reads is = .ok (children,reads') ∧
      ∀ i∈reads', i∈reads ∨ Full argv f i := by
  induction is generalizing reads with
  | nil => exact ⟨[],reads,rfl,fun i hi => .inl hi⟩
  | cons x is ih =>
    have hfull := h x List.mem_cons_self
    obtain ⟨n,p,name,hn,-,hp,-⟩ := id hfull
    obtain ⟨children,reads',hrun,hreads⟩ :=
      ih (fun y hy => h y (List.mem_cons_of_mem x hy)) (reads++[x.1])
    refine ⟨(x.2,n,p)::children,reads',?_,fun j hj => ?_⟩
    · simp only [launch, hn, readVargv, hp, hrun, Bind.bind, Except.bind]
    · exact (hreads j hj).elim (mem_reads hfull) .inr

theorem await_ok {argv : List String} {f : Frame} (exitval : Nat → Int) {is : List Nat}
    (h : ∀ i∈is, Full argv f i) (reads : List Nat) :
    ∃ reads', await argv f exitval reads is = .ok reads' ∧
      ∀ i∈reads', i∈reads ∨ Full argv f i := by
  induction is generalizing reads with
  | nil => exact ⟨reads,rfl,fun i hi => .inl hi⟩
  | cons i is ih =>
    have hfull := h i List.mem_cons_self
    obtain ⟨n,p,name,-,-,hp,hname⟩ := id hfull
    have htail : ∀ j∈is, Full argv f j := fun j hj => h j (List.mem_cons_of_mem i hj)
    by_cases he : exitval i = 0
    · obtain ⟨reads',hrun,hreads⟩ := ih htail reads
      exact ⟨reads',by simp [await, he, hrun],hreads⟩
    · obtain ⟨reads',hrun,hreads⟩ := ih htail (reads++[i])
      refine ⟨reads',?_,fun j hj => ?_⟩
      · simp [await, he, readVargv, hp, readToken, hname, hrun, Bind.bind, Except.bind]
      · exact (hreads j hj).elim (mem_reads hfull) .inr

/-- With a token that is no bar the whole of process_line stays in its arrays, the fragments
are the segments between bars, and of empty fragments only Vargc is read. -/
theorem processLine_split {argv : List String} (h : ∃ t∈argv, t≠"|") (commands : List String)
    (exitval : Nat → Int) :
    ∃ f r, processLine commands exitval argv = .ok (f,r) ∧
      f.frag = (argv.splitOn "|").length ∧
      (∀ i seg, (argv.splitOn "|")[i]? = some seg →
        load f.Vargc i = .ok seg.length ∧
        (seg≠[] → ∃ p post, load f.Vargv i = .ok p ∧ argv.drop p = seg++post ∧
          p = (((argv.splitOn "|").take i).map (·.length+1)).sum)) ∧
      ∀ i∈r.reads, ∃ n, load f.Vargc i = .ok n ∧ 0 < n := by
  obtain ⟨f,hsplit,hfrag,hholds⟩ := split_holds h
  have hseg : ∀ i seg, (argv.splitOn "|")[i]? = some seg →
      load f.Vargc i = .ok seg.length ∧
      (seg≠[] → ∃ p post, load f.Vargv i = .ok p ∧ argv.drop p = seg++post ∧
        p = (((argv.splitOn "|").take i).map (·.length+1)).sum) := by
    intro i seg hi
    obtain ⟨post,hpost⟩ := intercalate_drop hi
    obtain ⟨hc,hv⟩ := hholds.get hi
    simp only [Nat.zero_add] at hc hv
    rw [List.intercalate_splitOn] at hpost
    exact ⟨hc,fun hne => ⟨_,post,hv hne,hpost,rfl⟩⟩
  have hcells : ∀ i∈List.range f.frag, load f.Vargc i = .ok 0 ∨ Full argv f i := by
    intro i hi
    have hlt : i < (argv.splitOn "|").length := hfrag ▸ List.mem_range.mp hi
    obtain ⟨hc,hv⟩ := hseg i _ (List.getElem?_eq_getElem hlt)
    cases hs : (argv.splitOn "|")[i] with
    | nil =>
      rw [hs] at hc
      exact .inl hc
    | cons t ts =>
      rw [hs] at hc hv
      obtain ⟨p,post,hp,hdrop,-⟩ := hv nofun
      refine .inr ⟨_,p,t,hc,Nat.succ_pos _,hp,?_⟩
      have hget : (argv.drop p)[0]? = some t := by rw [hdrop]; rfl
      simpa using hget
  obtain ⟨comd,reads,hcheck,hreads,hsome⟩ := check_ok commands hcells []
  have hfull : ∀ {i}, Full argv f i → ∃ n, load f.Vargc i = .ok n ∧ 0 < n :=
    fun ⟨n,_,_,hn,hpos,_⟩ => ⟨n,hn,hpos⟩
  cases comd with
  | none =>
    refine ⟨f,⟨[],reads⟩,?_,hfrag,hseg,fun i hi => ?_⟩
    · simp only [processLine, hsplit, hcheck, Bind.bind, Except.bind]
    · exact hfull ((hreads i hi).resolve_left nofun)
  | some comd =>
    have hall := hsome rfl
    have hzip : ∀ x∈(List.range f.frag).zip comd, Full argv f x.1 := fun x hx =>
      hall x.1 (List.of_mem_zip hx).1
    obtain ⟨children,reads1,hlaunch,hreads1⟩ := launch_ok hzip reads
    obtain ⟨reads2,hawait,hreads2⟩ := await_ok exitval hall reads1
    refine ⟨f,⟨children,reads2⟩,?_,hfrag,hseg,fun i hi => ?_⟩
    · simp only [processLine, hsplit, hcheck, hlaunch, hawait, Bind.bind, Except.bind]
    · cases hreads2 i hi with
      | inl hi =>
        cases hreads1 i hi with
        | inl hi => exact hfull ((hreads i hi).resolve_left nofun)
        | inr hi => exact hfull hi
      | inr hi => exact hfull hi

/-- The splitting is exact and in bounds exactly where some token is no bar. -/
theorem processLine_split_iff (argv : List String) :
    (∀ commands exitval, ∃ f r, processLine commands exitval argv = .ok (f,r) ∧
      f.frag = (argv.splitOn "|").length ∧
      (∀ i seg, (argv.splitOn "|")[i]? = some seg →
        load f.Vargc i = .ok seg.length ∧
        (seg≠[] → ∃ p post, load f.Vargv i = .ok p ∧ argv.drop p = seg++post ∧
          p = (((argv.splitOn "|").take i).map (·.length+1)).sum)) ∧
      ∀ i∈r.reads, ∃ n, load f.Vargc i = .ok n ∧ 0 < n) ↔
    ∃ t∈argv, t≠"|" := by
  constructor
  · intro h
    by_contra hbars
    have hall : ∀ t∈argv, t = "|" := fun t ht => by_contra fun hne => hbars ⟨t,ht,hne⟩
    obtain ⟨f,r,hrun,-⟩ := h [] fun _ => 0
    simp [processLine, split_fault hall, Bind.bind, Except.bind] at hrun
  · exact fun h commands exitval => processLine_split h commands exitval

/-- The line of one bar writes Vargc[1]. -/
theorem processLine_bar : processLine ["ls"] (fun _ => 0) ["|"] = .error .outOfBounds := by
  rfl

end TinyOS.Shell
