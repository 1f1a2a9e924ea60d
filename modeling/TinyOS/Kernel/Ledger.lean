import TinyOS.Kernel.Syscalls
import Mathlib.Data.List.Nodup

/-! What a log of calls says about the processes: which incarnations of a pid there
have been, how each exited and who was told. No kernel code reads the ledger. -/
namespace TinyOS.Kernel

/-- One life of a pid, from its Exec on. -/
structure Incarnation where
  id : Nat
  parent : Option PcbRef
  exitval : Option Int

structure Report where
  id : Nat
  pid : PcbRef
  caller : PcbRef
  /-- The parent of the incarnation at that time. -/
  parent : Option PcbRef
  status : Bool
  stored : Option Int

structure Ledger where
  next : Nat
  live : PcbRef → Option Incarnation
  exits : List (Nat × PcbRef × Int)
  reports : List Report
  /-- The calls that concern no incarnation, though they should. -/
  stray : List Event

def Incarnation.adopt (p : PcbRef) (i : Incarnation) : Incarnation :=
  if i.parent = some p then { i with parent := some initPid } else i

def toPcb (pid : Int) : Option PcbRef :=
  if h : 0≤pid ∧ pid<MAX_PROC then some ⟨pid.toNat,pid_lt h⟩ else none

def Ledger.report (l : Ledger) (caller : PcbRef) (ret : Int) (status : Bool) (stored : Option Int) :
    Option (PcbRef × Incarnation) → Ledger
  | none => if ret = NOPROC then l else { l with stray := l.stray++[.wait caller ret status stored] }
  | some (p,i) =>
    { l with
      live := Function.update l.live p none
      reports := l.reports++[⟨i.id,p,caller,i.parent,status,stored⟩] }

def Ledger.record (l : Ledger) : Event → Ledger
  | .exec parent p =>
    { l with next := l.next+1, live := Function.update l.live p (some ⟨l.next,parent,none⟩) }
  | .exit p v => match l.live p with
    | none => { l with stray := l.stray++[.exit p v] }
    | some i =>
      { l with
        live := fun c => if c = p then some { i with exitval := some v } else (l.live c).map
          (·.adopt p)
        exits := l.exits++[(i.id,p,v)] }
  | .wait q ret status stored =>
    l.report q ret status stored ((toPcb ret).bind fun p => (l.live p).map fun i => (p,i))

def ledger (log : List Event) : Ledger :=
  log.foldl Ledger.record ⟨0,fun _ => none,[],[],[]⟩

theorem ledger_append (log : List Event) (e : Event) :
    ledger (log++[e]) = (ledger log).record e := by
  simp [ledger]

theorem toPcb_val (p : PcbRef) : toPcb p.val = some p := by
  have := p.isLt
  rw [toPcb, dif_pos (by omega)]
  simp

/-- No incarnation exits twice or is reported twice, and none is lost. -/
structure Ledger.Sound (l : Ledger) : Prop where
  noStray : l.stray = []
  /-- An incarnation is there until it is reported. -/
  born : ∀ n<l.next, (∃ p i, l.live p = some i ∧ i.id = n) ∨ ∃ r∈l.reports, r.id = n
  fresh : ∀ p i, l.live p = some i → i.id<l.next
  distinct : ∀ p q i j, l.live p = some i → l.live q = some j → i.id = j.id → p = q
  exitsOnce : (l.exits.map Prod.fst).Nodup
  reportsOnce : (l.reports.map Report.id).Nodup
  exitOld : ∀ e∈l.exits, e.1<l.next
  /-- An exit is still to be reported, or has been. -/
  exitKept : ∀ e∈l.exits, (∃ i, l.live e.2.1 = some i ∧ i.id = e.1 ∧ i.exitval = some e.2.2) ∨
    ∃ r∈l.reports, r.id = e.1
  exitLive : ∀ p i v, l.live p = some i → i.exitval = some v → (i.id,p,v)∈l.exits
  alive : ∀ p i, l.live p = some i → i.exitval = none → i.id∉l.exits.map Prod.fst
  report : ∀ r∈l.reports, r.parent = some r.caller ∧ ∃ v, (r.id,r.pid,v)∈l.exits ∧
    r.stored = if r.status then some v else none
  reported : ∀ r∈l.reports, ∀ p i, l.live p = some i → i.id≠r.id

theorem Incarnation.adopt_id (p : PcbRef) (i : Incarnation) :
    (i.adopt p).id = i.id ∧ (i.adopt p).exitval = i.exitval := by
  unfold adopt
  split <;> simp

theorem Ledger.Sound.exec {l : Ledger} (h : l.Sound) {parent : Option PcbRef} {p : PcbRef}
    (hp : l.live p = none) : (l.record (.exec parent p)).Sound := by
  have hlive : ∀ q i, (l.record (.exec parent p)).live q = some i →
      (q = p ∧ i = ⟨l.next,parent,none⟩) ∨ (q≠p ∧ l.live q = some i) := by
    intro q i hq
    by_cases hqp : q = p
    · subst hqp
      simp only [record, Function.update_self, Option.some.injEq] at hq
      exact Or.inl ⟨rfl,hq.symm⟩
    · exact Or.inr ⟨hqp,by simpa [record, hqp] using hq⟩
  have hold : ∀ q, q≠p → (l.record (.exec parent p)).live q = l.live q := fun q hq => by
    simp [record, hq]
  refine ⟨h.noStray,?_,?_,?_,h.exitsOnce,h.reportsOnce,?_,?_,?_,?_,h.report,?_⟩
  · intro n hn
    rcases Nat.lt_succ_iff_lt_or_eq.mp hn with hn | rfl
    · rcases h.born n hn with ⟨q,i,hq,hi⟩ | hr
      · have hqp : q≠p := fun he => by simp [he, hp] at hq
        exact Or.inl ⟨q,i,by rw [hold q hqp]; exact hq,hi⟩
      · exact Or.inr hr
    · exact Or.inl ⟨p,⟨l.next,parent,none⟩,by simp [record],rfl⟩
  · intro q i hq
    change i.id<l.next+1
    rcases hlive q i hq with ⟨-,rfl⟩ | ⟨-,hq⟩
    · exact Nat.lt_succ_self _
    · exact Nat.lt_succ_of_lt (h.fresh q i hq)
  · intro q r i j hq hr hij
    rcases hlive q i hq with ⟨hqp,hi⟩ | ⟨-,hq'⟩ <;> rcases hlive r j hr with ⟨hrp,hj⟩ | ⟨-,hr'⟩
    · rw [hqp, hrp]
    · have := h.fresh r j hr'
      rw [← hij, hi] at this
      exact absurd this (Nat.lt_irrefl _)
    · have := h.fresh q i hq'
      rw [hij, hj] at this
      exact absurd this (Nat.lt_irrefl _)
    · exact h.distinct q r i j hq' hr' hij
  · exact fun e he => Nat.lt_succ_of_lt (h.exitOld e he)
  · intro e he
    rcases h.exitKept e he with ⟨i,hi,hrest⟩ | hr
    · have hne : e.2.1≠p := fun hc => by simp [hc, hp] at hi
      exact Or.inl ⟨i,by rw [hold _ hne]; exact hi,hrest⟩
    · exact Or.inr hr
  · intro q i v hq hv
    rcases hlive q i hq with ⟨-,rfl⟩ | ⟨-,hq⟩
    · cases hv
    · exact h.exitLive q i v hq hv
  · intro q i hq hv hm
    rcases hlive q i hq with ⟨-,rfl⟩ | ⟨-,hq⟩
    · obtain ⟨e,he,heq⟩ := List.mem_map.mp hm
      have := h.exitOld e he
      simp [heq] at this
    · exact h.alive q i hq hv hm
  · intro r hr q i hq hid
    rcases hlive q i hq with ⟨-,rfl⟩ | ⟨-,hq⟩
    · obtain ⟨-,v,he,-⟩ := h.report r hr
      have := h.exitOld _ he
      simp [← hid] at this
    · exact h.reported r hr q i hq hid

theorem Ledger.Sound.exit {l : Ledger} (h : l.Sound) {p : PcbRef} {v : Int} {i : Incarnation}
    (hp : l.live p = some i) (hi : i.exitval = none) : (l.record (.exit p v)).Sound := by
  have hrec : l.record (.exit p v) = { l with
      live := fun c => if c = p then some { i with exitval := some v } else (l.live c).map
        (·.adopt p)
      exits := l.exits++[(i.id,p,v)] } := by
    simp [record, hp]
  rw [hrec]
  have hlive : ∀ q j, (if q = p then some { i with exitval := some v } else
      (l.live q).map (·.adopt p)) = some j → (q = p ∧ j = { i with exitval := some v }) ∨
        (q≠p ∧ ∃ k, l.live q = some k ∧ j.id = k.id ∧ j.exitval = k.exitval) := by
    intro q j hq
    by_cases hqp : q = p
    · rw [if_pos hqp] at hq
      exact Or.inl ⟨hqp,(Option.some.inj hq).symm⟩
    · rw [if_neg hqp] at hq
      obtain ⟨k,hk,rfl⟩ := Option.map_eq_some_iff.mp hq
      exact Or.inr ⟨hqp,k,hk,Incarnation.adopt_id p k⟩
  have hold : ∀ q k, q≠p → l.live q = some k → (if q = p then some { i with exitval := some v } else
      (l.live q).map (·.adopt p)) = some (k.adopt p) := by
    intro q k hqp hk
    rw [if_neg hqp, hk, Option.map_some]
  have hnew := h.alive p i hp hi
  refine ⟨h.noStray,?_,?_,?_,?_,h.reportsOnce,?_,?_,?_,?_,?_,?_⟩
  · intro n hn
    rcases h.born n hn with ⟨q,k,hk,hid⟩ | hr
    · by_cases hqp : q = p
      · rw [hqp, hp] at hk
        cases hk
        exact Or.inl ⟨p,{ i with exitval := some v },by simp,hid⟩
      · exact Or.inl ⟨q,k.adopt p,hold q k hqp hk,by rw [(k.adopt_id p).1]; exact hid⟩
    · exact Or.inr hr
  · intro q j hq
    rcases hlive q j hq with ⟨-,rfl⟩ | ⟨-,k,hk,hid,-⟩
    · exact h.fresh p i hp
    · rw [hid]
      exact h.fresh q k hk
  · intro q r j j' hq hr hjj
    rcases hlive q j hq with ⟨hqp,hj⟩ | ⟨-,k,hk,hid,-⟩ <;>
      rcases hlive r j' hr with ⟨hrp,hj'⟩ | ⟨-,k',hk',hid',-⟩
    · rw [hqp, hrp]
    · rw [hqp]
      exact h.distinct p r i k' hp hk' (by rw [← hid', ← hjj, hj])
    · rw [hrp]
      exact h.distinct q p k i hk hp (by rw [← hid, hjj, hj'])
    · exact h.distinct q r k k' hk hk' (by rw [← hid, hjj, hid'])
  · rw [List.map_append, List.nodup_append]
    refine ⟨h.exitsOnce,by simp,?_⟩
    intro a ha b hb hab
    simp only [List.map_cons, List.map_nil, List.mem_singleton] at hb
    exact hnew (hb ▸ hab ▸ ha)
  · intro e he
    rcases List.mem_append.mp he with he | he
    · exact h.exitOld e he
    · rw [List.mem_singleton.mp he]
      exact h.fresh p i hp
  · intro e he
    rcases List.mem_append.mp he with he | he
    · rcases h.exitKept e he with ⟨k,hk,hid,hv⟩ | hr
      · have hne : e.2.1≠p := by
          intro hc
          rw [hc, hp] at hk
          cases hk
          rw [hi] at hv
          cases hv
        refine Or.inl ⟨k.adopt p,hold _ k hne hk,?_⟩
        rw [(k.adopt_id p).1, (k.adopt_id p).2]
        exact ⟨hid,hv⟩
      · exact Or.inr hr
    · rw [List.mem_singleton.mp he]
      exact Or.inl ⟨{ i with exitval := some v },by simp,rfl,rfl⟩
  · intro q j w hq hw
    rcases hlive q j hq with ⟨rfl,rfl⟩ | ⟨-,k,hk,hid,hv⟩
    · simp at hw
      simp [hw]
    · rw [hid]
      exact List.mem_append_left _ (h.exitLive q k w hk (hv ▸ hw))
  · intro q j hq hw
    rcases hlive q j hq with ⟨-,rfl⟩ | ⟨hqp,k,hk,hid,hv⟩
    · simp at hw
    · rw [List.map_append, List.mem_append, not_or, hid]
      refine ⟨h.alive q k hk (hv ▸ hw),?_⟩
      simp only [List.map_cons, List.map_nil, List.mem_singleton]
      exact fun he => hqp (h.distinct q p k i hk hp he)
  · intro r hr
    obtain ⟨hcaller,w,hw,hst⟩ := h.report r hr
    exact ⟨hcaller,w,List.mem_append_left _ hw,hst⟩
  · intro r hr q j hq
    rcases hlive q j hq with ⟨-,rfl⟩ | ⟨-,k,hk,hid,-⟩
    · exact h.reported r hr p i hp
    · rw [hid]
      exact h.reported r hr q k hk

theorem Ledger.record_wait_eq (l : Ledger) (q : PcbRef) (ret : Int) (status : Bool)
    (stored : Option Int) : l.record (.wait q ret status stored) =
      l.report q ret status stored ((toPcb ret).bind fun p => (l.live p).map fun i => (p,i)) := rfl

theorem Ledger.record_noproc (l : Ledger) (q : PcbRef) (status : Bool) (stored : Option Int) :
    l.record (.wait q NOPROC status stored) = l := by
  have hn : toPcb NOPROC = none := by
    rw [toPcb, dif_neg (by simp [NOPROC])]
  rw [record_wait_eq, hn, Option.bind_none, report, if_pos rfl]

theorem Ledger.record_wait {l : Ledger} {q p : PcbRef} {i : Incarnation} (hp : l.live p = some i)
    (status : Bool) (stored : Option Int) :
    l.record (.wait q p.val status stored) = { l with
      live := Function.update l.live p none
      reports := l.reports++[⟨i.id,p,q,i.parent,status,stored⟩] } := by
  have ho : ((toPcb p.val).bind fun p => (l.live p).map fun i => (p,i)) = some (p,i) := by
    rw [toPcb_val, Option.bind_some, hp, Option.map_some]
  rw [record_wait_eq, ho, report]

theorem Ledger.Sound.wait {l : Ledger} (h : l.Sound) {q p : PcbRef} {i : Incarnation} {v : Int}
    (hp : l.live p = some i) (hpar : i.parent = some q) (hv : i.exitval = some v) (status : Bool) :
    (l.record (.wait q p.val status (if status then some v else none))).Sound := by
  rw [record_wait hp]
  have hlive : ∀ r j, Function.update l.live p none r = some j → r≠p ∧ l.live r = some j := by
    intro r j hr
    by_cases hrp : r = p
    · simp [hrp] at hr
    · exact ⟨hrp,by simpa [hrp] using hr⟩
  have hexit := h.exitLive p i v hp hv
  refine ⟨h.noStray,?_,?_,?_,h.exitsOnce,?_,h.exitOld,?_,?_,?_,?_,?_⟩
  · intro n hn
    rcases h.born n hn with ⟨r,j,hj,hid⟩ | ⟨r,hr,hid⟩
    · by_cases hrp : r = p
      · rw [hrp, hp] at hj
        cases hj
        exact Or.inr ⟨_,List.mem_append_right _ (List.mem_singleton.mpr rfl),hid⟩
      · exact Or.inl ⟨r,j,by simpa [hrp] using hj,hid⟩
    · exact Or.inr ⟨r,List.mem_append_left _ hr,hid⟩
  · exact fun r j hr => h.fresh r j (hlive r j hr).2
  · exact fun r r' j j' hr hr' => h.distinct r r' j j' (hlive r j hr).2 (hlive r' j' hr').2
  · rw [List.map_append, List.nodup_append]
    refine ⟨h.reportsOnce,by simp,?_⟩
    intro a ha b hb hab
    obtain ⟨r,hr,rfl⟩ := List.mem_map.mp ha
    simp only [List.map_cons, List.map_nil, List.mem_singleton] at hb
    exact h.reported r hr p i hp (by rw [hab, hb])
  · intro e he
    rcases h.exitKept e he with ⟨k,hk,hid,hw⟩ | ⟨r,hr,hid⟩
    · by_cases hep : e.2.1 = p
      · rw [hep, hp] at hk
        cases hk
        exact Or.inr ⟨_,List.mem_append_right _ (List.mem_singleton.mpr rfl),hid⟩
      · exact Or.inl ⟨k,by simpa [hep] using hk,hid,hw⟩
    · exact Or.inr ⟨r,List.mem_append_left _ hr,hid⟩
  · exact fun r j w hr => h.exitLive r j w (hlive r j hr).2
  · exact fun r j hr => h.alive r j (hlive r j hr).2
  · intro r hr
    rcases List.mem_append.mp hr with hr | hr
    · exact h.report r hr
    · rw [List.mem_singleton.mp hr]
      exact ⟨hpar,v,hexit,rfl⟩
  · intro r hr r' j hr' hid
    obtain ⟨hne,hj⟩ := hlive r' j hr'
    rcases List.mem_append.mp hr with hr | hr
    · exact h.reported r hr r' j hj hid
    · rw [List.mem_singleton.mp hr] at hid
      exact hne (h.distinct r' p j i hj hp hid)

structure Ledger.Matches (l : Ledger) (PT : PcbRef → PCB) : Prop where
  free : ∀ p, l.live p = none ↔ (PT p).pstate = .FREE
  parent : ∀ p i, l.live p = some i → i.parent = (PT p).parent
  exitval : ∀ p i, l.live p = some i →
    i.exitval = if (PT p).pstate = .ZOMBIE then some (PT p).exitval else none

end TinyOS.Kernel
