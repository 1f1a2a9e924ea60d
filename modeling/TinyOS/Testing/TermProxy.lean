import TinyOS.Lib.Transition
import TinyOS.Lib.WorkQueue
import Mathlib.Data.List.Infix

/-! The proxy of a terminal in unit_testing.c: a daemon reads what the virtual machine prints
and compares it with the patterns of expect, another one types the patterns of sendme. Patterns
are given by their characters. -/
namespace TinyOS.Testing.Proxy
open Transition WorkQueue

abbrev Bytes := List UInt8

def coninputSize : Nat := 1024

/-- The daemon of the console, in term_proxy_daemon_get and in con_proc: pat is what is left
of the pattern, complete the local flag. -/
inductive Con where
  | get
  /-- while(plen > 0) -/
  | loop (pat : Bytes) (complete : Bool)
  | timeout (pat : Bytes) (complete : Bool)
  | poll (pat : Bytes) (complete : Bool)
  /-- while(! (have_data || COMPLETE)) -/
  | check (pat : Bytes) (complete haveData : Bool)
  | read (pat : Bytes) (complete : Bool)
  /-- ASSERT_MSG(plen==0, ...) -/
  | verdict (pat : Bytes)
  | ended
  deriving DecidableEq

inductive Kbd where
  | get
  /-- while(*pat != '\0') -/
  | loop (pat : Bytes)
  /-- while(! term_proxy_daemon_complete(this)) -/
  | wait (pat : Bytes)
  | poll (pat : Bytes)
  | save (pat : Bytes)
  | write (pat : Bytes) (oldcomplete : Bool)
  /-- finish: ASSERT_MSG(*pat=='\0', ...) -/
  | finish (pat : Bytes)
  | ended
  deriving DecidableEq

inductive Main where
  | boot
  | closeCon
  | joinCon
  | closeKbd
  | joinKbd
  | closed
  deriving DecidableEq

structure State where
  main : Main
  conQueue : Queue Bytes
  kbdQueue : Queue Bytes
  con : Con
  kbd : Kbd
  /-- Both fifos, with the bytes that are written and not yet read. -/
  conFifo : Bytes
  kbdFifo : Bytes
  FLAG_FAILURE : Bool
  /-- The patterns of expect and of sendme so far, what the machine has printed and read. -/
  expected : List Bytes
  sent : List Bytes
  output : Bytes
  input : Bytes
  /-- con_proc gave up although there were bytes in the fifo. -/
  late : Bool
  /-- kbd_proc found no room in the fifo although the machine was done. -/
  full : Bool

def State.init : State where
  main := .boot
  conQueue := start
  kbdQueue := start
  con := .get
  kbd := .get
  conFifo := []
  kbdFifo := []
  FLAG_FAILURE := false
  expected := []
  sent := []
  output := []
  input := []
  late := false
  full := false

def State.expect (s : State) (pattern : Bytes) : Option State :=
  if s.main = .boot then
    some { s with conQueue := s.conQueue.add pattern, expected := s.expected++[pattern] }
  else none

def State.sendme (s : State) (pattern : Bytes) : Option State :=
  if s.main = .boot then
    some { s with kbdQueue := s.kbdQueue.add pattern, sent := s.sent++[pattern] }
  else none

def State.print (s : State) (b : UInt8) : Option State :=
  if s.main = .boot then some { s with conFifo := s.conFifo++[b], output := s.output++[b] }
  else none

def State.typed (s : State) : Option State :=
  match s.main, s.kbdFifo with
  | .boot, b::fifo => some { s with kbdFifo := fifo, input := s.input++[b] }
  | _, _ => none

def State.runMain (s : State) : Option State :=
  match s.main with
  | .boot => some { s with main := .closeCon }
  | .closeCon => some { s with main := .joinCon, conQueue := s.conQueue.close }
  | .joinCon => if s.con = .ended then some { s with main := .closeKbd } else none
  | .closeKbd => some { s with main := .joinKbd, kbdQueue := s.kbdQueue.close }
  | .joinKbd => if s.kbd = .ended then some { s with main := .closed } else none
  | .closed => none

def State.runCon (s : State) (n : Nat) : Option State :=
  match s.con with
  | .get =>
    if s.conQueue.asleep then none
    else match s.conQueue.get with
    | (q,.item pattern) => some { s with conQueue := q, con := .loop pattern false }
    | (q,.wait) => some { s with conQueue := q }
    | (q,.over) => some { s with conQueue := q, con := .ended }
  | .loop pat complete =>
    some { s with con := if pat = [] then .verdict [] else .timeout pat complete }
  | .timeout pat complete => some { s with con := .poll pat (complete || s.conQueue.closed) }
  | .poll pat complete => some { s with con := .check pat complete (s.conFifo≠[]) }
  | .check pat complete haveData =>
    if haveData then some { s with con := .read pat complete }
    else if complete || s.conQueue.closed then
      some { s with con := .verdict pat, late := s.late || s.conFifo≠[] }
    else some { s with con := .timeout pat false }
  | .read pat complete =>
    if s.conFifo = [] then some { s with con := .timeout pat complete }
    else if 0 < n ∧ n≤pat.length ∧ n≤coninputSize ∧ n≤ s.conFifo.length then
      some { s with
        conFifo := s.conFifo.drop n
        con := if s.conFifo.take n = pat.take n then .loop (pat.drop n) complete
          else .verdict pat }
    else none
  | .verdict pat => some { s with con := .get, FLAG_FAILURE := s.FLAG_FAILURE || pat≠[] }
  | .ended => none

/-- A step of the keyboard daemon; poll finds the fifo ready or not, write takes n bytes, or
none for EAGAIN. -/
def State.runKbd (s : State) (ready : Bool) (n : Option Nat) : Option State :=
  match s.kbd with
  | .get =>
    if s.kbdQueue.asleep then none
    else match s.kbdQueue.get with
    | (q,.item pattern) => some { s with kbdQueue := q, kbd := .loop pattern }
    | (q,.wait) => some { s with kbdQueue := q }
    | (q,.over) => some { s with kbdQueue := q, kbd := .ended }
  | .loop pat => some { s with kbd := if pat = [] then .finish [] else .wait pat }
  | .wait pat => some { s with kbd := if s.kbdQueue.closed then .save pat else .poll pat }
  | .poll pat => some { s with kbd := if ready then .save pat else .wait pat }
  | .save pat => some { s with kbd := .write pat s.kbdQueue.closed }
  | .write pat oldcomplete =>
    if pat = [] then some { s with kbd := .loop [] }
    else match n with
    | none =>
      if oldcomplete then some { s with kbd := .finish pat, full := true }
      else some { s with kbd := .loop pat }
    | some n =>
      if 0 < n ∧ n≤pat.length then
        some { s with kbdFifo := s.kbdFifo++pat.take n, kbd := .write (pat.drop n) oldcomplete }
      else none
  | .finish pat => some { s with kbd := .get, FLAG_FAILURE := s.FLAG_FAILURE || pat≠[] }
  | .ended => none

inductive Label where
  | expect (pattern : Bytes)
  | sendme (pattern : Bytes)
  | print (b : UInt8)
  | typed
  | main
  | con (n : Nat)
  | kbd (ready : Bool) (n : Option Nat)
  /-- A wait on the condition of a daemon ends without a signal. -/
  | wakeCon
  | wakeKbd
  deriving DecidableEq

def State.exec (s : State) : Label → Option State
  | .expect pattern => s.expect pattern
  | .sendme pattern => s.sendme pattern
  | .print b => s.print b
  | .typed => s.typed
  | .main => s.runMain
  | .con n => s.runCon n
  | .kbd ready n => s.runKbd ready n
  | .wakeCon => some { s with conQueue := s.conQueue.wake }
  | .wakeKbd => some { s with kbdQueue := s.kbdQueue.wake }

def system : System State Label where
  init s := s = .init
  next := State.exec

/-! What is left of the pattern that a daemon works on, and what it knows. -/

@[simp] def Con.rest : Con → Bytes
  | .loop pat _ | .timeout pat _ | .poll pat _ | .check pat _ _ | .read pat _ | .verdict pat => pat
  | .get | .ended => []

@[simp] def Con.complete : Con → Bool
  | .loop _ complete | .timeout _ complete | .poll _ complete | .check _ complete _
  | .read _ complete => complete
  | _ => false

@[simp] def Con.finds : Con → Bool
  | .check _ _ haveData => haveData
  | .read _ _ => true
  | _ => false

@[simp] def Con.waits : Con → Bool
  | .timeout _ _ | .poll _ _ | .check _ _ _ | .read _ _ => true
  | _ => false

@[simp] def Con.fails : Con → Bool
  | .verdict pat => pat≠[]
  | _ => false

@[simp] def Kbd.rest : Kbd → Bytes
  | .loop pat | .wait pat | .poll pat | .save pat | .write pat _ | .finish pat => pat
  | .get | .ended => []

@[simp] def Kbd.oldcomplete : Kbd → Bool
  | .write _ oldcomplete => oldcomplete
  | _ => false

@[simp] def Kbd.fails : Kbd → Bool
  | .finish pat => pat≠[]
  | _ => false

@[simp] def Main.conClosed : Main → Bool
  | .boot | .closeCon => false
  | _ => true

@[simp] def Main.conJoined : Main → Bool
  | .closeKbd | .joinKbd | .closed => true
  | _ => false

@[simp] def Main.kbdClosed : Main → Bool
  | .joinKbd | .closed => true
  | _ => false

def Apart (x y : Bytes) : Prop := ¬x <+: y ∧ ¬y <+: x

theorem Apart.append {x y : Bytes} (h : Apart x y) (u v : Bytes) : Apart (x++u) (y++v) := by
  have hx : x <+: x++u := List.prefix_append x u
  have hy : y <+: y++v := List.prefix_append y v
  refine ⟨fun hp => ?_,fun hp => ?_⟩
  · rcases List.prefix_or_prefix_of_prefix (hx.trans hp) hy with hxy | hyx
    · exact h.1 hxy
    · exact h.2 hyx
  · rcases List.prefix_or_prefix_of_prefix hx (hy.trans hp) with hxy | hyx
    · exact h.1 hxy
    · exact h.2 hyx

theorem apart_of_take {n : Nat} {x y : Bytes} (c : Bytes) (hx : n≤x.length) (hy : n≤y.length)
    (hne : y.take n≠x.take n) : Apart (c++x) (c++y) := by
  refine ⟨fun hp => ?_,fun hp => ?_⟩
  · obtain ⟨t,rfl⟩ := (List.prefix_append_right_inj c).mp hp
    exact hne (List.take_append_of_le_length hx)
  · obtain ⟨t,rfl⟩ := (List.prefix_append_right_inj c).mp hp
    exact hne (List.take_append_of_le_length hy).symm

/-- The patterns are not what the machine printed, or con_proc gave up too early. -/
def State.Wrong (s : State) : Prop :=
  Apart s.expected.flatten s.output ∨ s.late = true ∨
    (s.main≠.boot ∧ ¬s.expected.flatten <+: s.output)

/-- All that was read is what the patterns ask for so far. -/
def State.Matches (s : State) : Prop :=
  s.con.fails = false ∧ ∃ seen, s.output = seen++s.conFifo ∧
    s.expected.flatten = seen++(s.con.rest++s.conQueue.items.flatten)

def State.Types (s : State) : Prop :=
  s.kbd.fails = false ∧
    s.sent.flatten = s.input++(s.kbdFifo++(s.kbd.rest++s.kbdQueue.items.flatten))

structure ConInv (s : State) : Prop where
  sound : s.conQueue.Sound
  closed : s.conQueue.closed = s.main.conClosed
  complete : s.con.complete = true → s.main.conClosed = true
  finds : s.con.finds = true → s.conFifo≠[]
  waits : s.con.waits = true → s.con.rest≠[]
  ended : s.con = .ended → s.conQueue.items = [] ∧ s.main.conClosed = true
  joined : s.main.conJoined = true → s.con = .ended
  verdict : s.Matches ∨ (s.Wrong ∧ (s.FLAG_FAILURE = true ∨ s.con.fails = true))

structure KbdInv (s : State) : Prop where
  sound : s.kbdQueue.Sound
  closed : s.kbdQueue.closed = s.main.kbdClosed
  ended : s.kbd = .ended → s.kbdQueue.items = [] ∧ s.main.kbdClosed = true
  joined : s.main = .closed → s.kbd = .ended
  verdict : s.Types ∨ (s.full = true ∧ (s.FLAG_FAILURE = true ∨ s.kbd.fails = true))

structure Inv (s : State) : Prop where
  con : ConInv s
  kbd : KbdInv s
  flag : s.FLAG_FAILURE = true → s.Wrong ∨ s.full = true

variable {s s' : State}

theorem inv_init : Inv .init := by
  refine ⟨⟨sound_start,rfl,?_,?_,?_,?_,?_,.inl ⟨rfl,[],rfl,rfl⟩⟩,
    ⟨sound_start,rfl,?_,?_,.inl ⟨rfl,rfl⟩⟩,?_⟩ <;> simp [State.init]

theorem ConInv.frame (h : ConInv s) (hmain : s'.main = s.main) (hq : s'.conQueue = s.conQueue)
    (hcon : s'.con = s.con) (hfifo : s'.conFifo = s.conFifo) (he : s'.expected = s.expected)
    (ho : s'.output = s.output) (hl : s'.late = s.late)
    (hf : s.FLAG_FAILURE = true → s'.FLAG_FAILURE = true) : ConInv s' := by
  have hwrong : s.Wrong → s'.Wrong := by
    unfold State.Wrong
    rw [hmain, he, ho, hl]
    exact id
  have hmatch : s.Matches → s'.Matches := by
    unfold State.Matches
    rw [hq, hcon, hfifo, he, ho]
    exact id
  refine ⟨hq ▸ h.sound,?_,?_,?_,?_,?_,?_,?_⟩
  · rw [hq, hmain]
    exact h.closed
  · rw [hcon, hmain]
    exact h.complete
  · rw [hcon, hfifo]
    exact h.finds
  · rw [hcon]
    exact h.waits
  · rw [hcon, hq, hmain]
    exact h.ended
  · rw [hmain, hcon]
    exact h.joined
  · rw [hcon]
    exact h.verdict.imp hmatch fun hw => ⟨hwrong hw.1,hw.2.imp_left hf⟩

theorem KbdInv.frame (h : KbdInv s) (hmain : s'.main = s.main) (hq : s'.kbdQueue = s.kbdQueue)
    (hkbd : s'.kbd = s.kbd) (hfifo : s'.kbdFifo = s.kbdFifo) (hs : s'.sent = s.sent)
    (hi : s'.input = s.input) (hfull : s'.full = s.full)
    (hf : s.FLAG_FAILURE = true → s'.FLAG_FAILURE = true) : KbdInv s' := by
  have htypes : s.Types → s'.Types := by
    unfold State.Types
    rw [hq, hkbd, hfifo, hs, hi]
    exact id
  refine ⟨hq ▸ h.sound,?_,?_,?_,?_⟩
  · rw [hq, hmain]
    exact h.closed
  · rw [hkbd, hq, hmain]
    exact h.ended
  · rw [hmain, hkbd]
    exact h.joined
  · rw [hkbd, hfull]
    exact h.verdict.imp htypes fun hw => ⟨hw.1,hw.2.imp_left hf⟩

theorem State.Wrong.grow (h : s.Wrong) (hb : s.main = .boot) {u v : Bytes}
    (he : s'.expected.flatten = s.expected.flatten++u) (ho : s'.output = s.output++v)
    (hl : s'.late = s.late) : s'.Wrong := by
  rcases h with ha | hlate | ⟨hmain,-⟩
  · refine .inl ?_
    rw [he, ho]
    exact ha.append u v
  · exact .inr (.inl (hl.trans hlate))
  · exact absurd hb hmain

theorem Inv.expect (h : Inv s) {pattern : Bytes} (hs : s.expect pattern = some s') : Inv s' := by
  unfold State.expect at hs
  split at hs
  · rename_i hb
    cases hs
    have hc := h.con
    have hwrong : s.Wrong → State.Wrong { s with
        conQueue := s.conQueue.add pattern, expected := s.expected++[pattern] } := fun hw =>
      hw.grow hb (u := pattern) (v := []) (by simp) (by simp) rfl
    refine ⟨⟨sound_add,hc.closed,hc.complete,hc.finds,hc.waits,?_,hc.joined,?_⟩,
      h.kbd.frame rfl rfl rfl rfl rfl rfl rfl id,fun hf => (h.flag hf).imp_left hwrong⟩
    · intro he
      have := (hc.ended he).2
      simp [hb] at this
    · cases hc.verdict with
      | inl hm =>
        obtain ⟨hf,seen,ho,hp⟩ := hm
        exact .inl ⟨hf,seen,ho,by simp [Queue.add, hp]⟩
      | inr hw => exact .inr ⟨hwrong hw.1,hw.2⟩
  · cases hs

theorem Inv.print (h : Inv s) {b : UInt8} (hs : s.print b = some s') : Inv s' := by
  unfold State.print at hs
  split at hs
  · rename_i hb
    cases hs
    have hc := h.con
    have hwrong : s.Wrong → State.Wrong { s with
        conFifo := s.conFifo++[b], output := s.output++[b] } := fun hw =>
      hw.grow hb (u := []) (v := [b]) (by simp) rfl rfl
    refine ⟨⟨hc.sound,hc.closed,hc.complete,?_,hc.waits,hc.ended,hc.joined,?_⟩,
      h.kbd.frame rfl rfl rfl rfl rfl rfl rfl id,fun hf => (h.flag hf).imp_left hwrong⟩
    · intro _
      simp
    · cases hc.verdict with
      | inl hm =>
        obtain ⟨hf,seen,ho,hp⟩ := hm
        exact .inl ⟨hf,seen,by simp [ho],hp⟩
      | inr hw => exact .inr ⟨hwrong hw.1,hw.2⟩
  · cases hs

theorem Inv.sendme (h : Inv s) {pattern : Bytes} (hs : s.sendme pattern = some s') : Inv s' := by
  unfold State.sendme at hs
  split at hs
  · rename_i hb
    cases hs
    have hk := h.kbd
    refine ⟨h.con.frame rfl rfl rfl rfl rfl rfl rfl id,⟨sound_add,hk.closed,?_,?_,?_⟩,h.flag⟩
    · intro he
      have := (hk.ended he).2
      simp [hb] at this
    · intro hm
      cases hb.symm.trans hm
    · cases hk.verdict with
      | inl ht => exact .inl ⟨ht.1,by simp [Queue.add, ht.2]⟩
      | inr hw => exact .inr hw
  · cases hs

theorem Inv.typed (h : Inv s) (hs : s.typed = some s') : Inv s' := by
  unfold State.typed at hs
  split at hs
  · rename_i b fifo hb hfifo
    cases hs
    have hk := h.kbd
    refine ⟨h.con.frame rfl rfl rfl rfl rfl rfl rfl id,
      ⟨hk.sound,hk.closed,hk.ended,hk.joined,?_⟩,h.flag⟩
    cases hk.verdict with
    | inl ht => exact .inl ⟨ht.1,by simp [ht.2, hfifo]⟩
    | inr hw => exact .inr hw
  · cases hs

theorem Inv.wakeCon (h : Inv s) : Inv { s with conQueue := s.conQueue.wake } := by
  have hc := h.con
  refine ⟨⟨sound_wake,hc.closed,hc.complete,hc.finds,hc.waits,hc.ended,hc.joined,?_⟩,
    h.kbd.frame rfl rfl rfl rfl rfl rfl rfl id,h.flag⟩
  cases hc.verdict with
  | inl hm => exact .inl hm
  | inr hw => exact .inr hw

theorem Inv.wakeKbd (h : Inv s) : Inv { s with kbdQueue := s.kbdQueue.wake } := by
  have hk := h.kbd
  refine ⟨h.con.frame rfl rfl rfl rfl rfl rfl rfl id,
    ⟨sound_wake,hk.closed,hk.ended,hk.joined,?_⟩,h.flag⟩
  cases hk.verdict with
  | inl ht => exact .inl ht
  | inr hw => exact .inr hw

theorem State.Wrong.main {m : Main} (h : s.Wrong) (hm : s.main≠.boot → m≠.boot) :
    State.Wrong { s with main := m } := by
  rcases h with ha | hlate | ⟨hmain,hp⟩
  · exact .inl ha
  · exact .inr (.inl hlate)
  · exact .inr (.inr ⟨hm hmain,hp⟩)

theorem Inv.goMain (h : Inv s) {m : Main} {q r : Queue Bytes} (hm : s.main≠.boot → m≠.boot)
    (hq : q.Sound ∧ q.items = s.conQueue.items ∧ q.closed = m.conClosed)
    (hr : r.Sound ∧ r.items = s.kbdQueue.items ∧ r.closed = m.kbdClosed)
    (hcon : s.main.conClosed = true → m.conClosed = true)
    (hkbd : s.main.kbdClosed = true → m.kbdClosed = true)
    (hjoin : m.conJoined = true → s.con = .ended) (hjoin' : m = .closed → s.kbd = .ended) :
    Inv { s with main := m, conQueue := q, kbdQueue := r } := by
  have hc := h.con
  have hk := h.kbd
  refine ⟨⟨hq.1,hq.2.2,fun hl => hcon (hc.complete hl),hc.finds,hc.waits,fun he => ?_,hjoin,?_⟩,
    ⟨hr.1,hr.2.2,fun he => ?_,hjoin',?_⟩,fun hf => (h.flag hf).imp_left fun hw => hw.main hm⟩
  · exact ⟨hq.2.1.trans (hc.ended he).1,hcon (hc.ended he).2⟩
  · cases hc.verdict with
    | inl hv =>
      obtain ⟨hf,seen,ho,hp⟩ := hv
      exact .inl ⟨hf,seen,ho,by rw [hp, hq.2.1]⟩
    | inr hw => exact .inr ⟨hw.1.main hm,hw.2⟩
  · exact ⟨hr.2.1.trans (hk.ended he).1,hkbd (hk.ended he).2⟩
  · cases hk.verdict with
    | inl ht => exact .inl ⟨ht.1,by rw [hr.2.1]; exact ht.2⟩
    | inr hw => exact .inr hw

theorem Inv.runMain (h : Inv s) (hs : s.runMain = some s') : Inv s' := by
  have hc := h.con
  have hk := h.kbd
  unfold State.runMain at hs
  cases hm : s.main with
  | boot =>
    simp only [hm, Option.some.injEq] at hs
    subst hs
    exact h.goMain (by simp) ⟨hc.sound,rfl,by rw [hc.closed, hm]; rfl⟩
      ⟨hk.sound,rfl,by rw [hk.closed, hm]; rfl⟩ (by simp [hm]) (by simp [hm]) (by simp) (by simp)
  | closeCon =>
    simp only [hm, Option.some.injEq] at hs
    subst hs
    exact h.goMain (by simp) ⟨sound_close,rfl,rfl⟩ ⟨hk.sound,rfl,by rw [hk.closed, hm]; rfl⟩
      (by simp) (by simp [hm]) (by simp) (by simp)
  | joinCon =>
    simp only [hm] at hs
    split at hs
    · cases hs
      exact h.goMain (by simp) ⟨hc.sound,rfl,by rw [hc.closed, hm]; rfl⟩
        ⟨hk.sound,rfl,by rw [hk.closed, hm]; rfl⟩ (by simp) (by simp [hm]) (fun _ => ‹_›) (by simp)
    · cases hs
  | closeKbd =>
    simp only [hm, Option.some.injEq] at hs
    subst hs
    exact h.goMain (by simp) ⟨hc.sound,rfl,by rw [hc.closed, hm]; rfl⟩ ⟨sound_close,rfl,rfl⟩
      (by simp) (by simp) (fun _ => hc.joined (by simp [hm])) (by simp)
  | joinKbd =>
    simp only [hm] at hs
    split at hs
    · cases hs
      exact h.goMain (by simp) ⟨hc.sound,rfl,by rw [hc.closed, hm]; rfl⟩
        ⟨hk.sound,rfl,by rw [hk.closed, hm]; rfl⟩ (by simp) (by simp)
        (fun _ => hc.joined (by simp [hm])) (fun _ => ‹_›)
    · cases hs
  | closed => simp [hm] at hs

theorem Inv.conGoes (h : Inv s) {c : Con} (hjoined : s.main.conJoined = true → c = .ended)
    (hrest : c.rest = s.con.rest) (hfails : c.fails = false) (hfails' : s.con.fails = false)
    (hcomplete : c.complete = true → s.main.conClosed = true)
    (hfinds : c.finds = true → s.conFifo≠[]) (hwaits : c.waits = true → c.rest≠[])
    (hended : c = .ended → s.conQueue.items = [] ∧ s.main.conClosed = true) :
    Inv { s with con := c } := by
  have hc := h.con
  refine ⟨⟨hc.sound,hc.closed,hcomplete,hfinds,hwaits,hended,hjoined,?_⟩,
    h.kbd.frame rfl rfl rfl rfl rfl rfl rfl id,h.flag⟩
  cases hc.verdict with
  | inl hm =>
    obtain ⟨-,seen,ho,hp⟩ := hm
    exact .inl ⟨hfails,seen,ho,by rw [hp, hrest]⟩
  | inr hw =>
    refine .inr ⟨hw.1,hw.2.imp_right fun hf => ?_⟩
    rw [hfails'] at hf
    cases hf

theorem Inv.conFails (h : Inv s) {pat fifo : Bytes} (late : Bool) (hpat : pat≠[])
    (hjoined : s.main.conJoined = false) (hlate : s.late = true → late = true)
    (hwrong : s.Matches → State.Wrong { s with con := .verdict pat, conFifo := fifo, late := late }) :
    Inv { s with con := .verdict pat, conFifo := fifo, late := late } := by
  have hc := h.con
  have hkeep : s.Wrong → State.Wrong { s with con := .verdict pat, conFifo := fifo, late := late } := by
    rintro (ha | hl | hp)
    · exact .inl ha
    · exact .inr (.inl (hlate hl))
    · exact .inr (.inr hp)
  refine ⟨⟨hc.sound,hc.closed,by simp,by simp,by simp,by simp,fun hj => ?_,?_⟩,
    h.kbd.frame rfl rfl rfl rfl rfl rfl rfl id,fun hf => (h.flag hf).imp_left hkeep⟩
  · cases hjoined.symm.trans hj
  · refine .inr ⟨?_,.inr (by simp [hpat])⟩
    cases hc.verdict with
    | inl hm => exact hwrong hm
    | inr hw => exact hkeep hw.1

theorem Inv.conGet (h : Inv s) (hcon : s.con = .get) (hj : s.main.conJoined = false)
    {q : Queue Bytes} {c : Con} (hq : q.Sound) (hclosed : q.closed = s.conQueue.closed)
    (hplain : c.complete = false ∧ c.finds = false ∧ c.waits = false ∧ c.fails = false ∧ c≠.ended)
    (hwork : c.rest++q.items.flatten = s.conQueue.items.flatten) :
    Inv { s with conQueue := q, con := c } := by
  have hc := h.con
  obtain ⟨h1,h2,h3,h4,h5⟩ := hplain
  refine ⟨⟨hq,hclosed.trans hc.closed,fun hl => ?_,fun hf => ?_,fun hw => ?_,
    fun he => absurd he h5,fun he => ?_,?_⟩,h.kbd.frame rfl rfl rfl rfl rfl rfl rfl id,h.flag⟩
  · cases h1.symm.trans hl
  · cases h2.symm.trans hf
  · cases h3.symm.trans hw
  · cases hj.symm.trans he
  · cases hc.verdict with
    | inl hm =>
      obtain ⟨-,seen,ho,hp⟩ := hm
      refine .inl ⟨h4,seen,ho,?_⟩
      rw [hp, hcon, hwork]
      rfl
    | inr hw =>
      refine .inr ⟨hw.1,hw.2.imp_right fun hf => ?_⟩
      rw [hcon] at hf
      cases hf

theorem Inv.conVerdict (h : Inv s) {pat : Bytes} (hcon : s.con = .verdict pat)
    (hj : s.main.conJoined = false) :
    Inv { s with con := .get, FLAG_FAILURE := s.FLAG_FAILURE || pat≠[] } := by
  have hc := h.con
  have hkeep : s.FLAG_FAILURE = true → (s.FLAG_FAILURE || decide (pat≠[])) = true := by
    intro hf
    rw [hf, Bool.true_or]
  refine ⟨⟨hc.sound,hc.closed,by simp,by simp,by simp,by simp,fun he => ?_,?_⟩,
    h.kbd.frame rfl rfl rfl rfl rfl rfl rfl hkeep,fun hf => ?_⟩
  · cases hj.symm.trans he
  · cases hc.verdict with
    | inl hm =>
      obtain ⟨hf,seen,ho,hp⟩ := hm
      have hpat : pat = [] := by simpa [hcon] using hf
      refine .inl ⟨rfl,seen,ho,?_⟩
      rw [hp, hcon, hpat]
      rfl
    | inr hw =>
      refine .inr ⟨hw.1,.inl ?_⟩
      cases hw.2 with
      | inl hf => exact hkeep hf
      | inr hf =>
        have hpat : pat≠[] := by simpa [hcon] using hf
        simp [hpat]
  · change (s.FLAG_FAILURE || decide (pat≠[])) = true at hf
    cases (Bool.or_eq_true _ _).mp hf with
    | inl hf => exact h.flag hf
    | inr hpat =>
      cases hc.verdict with
      | inl hm =>
        have hnone : pat = [] := by simpa [hcon] using hm.1
        exact absurd hnone (by simpa using hpat)
      | inr hw => exact .inl hw.1

theorem Inv.runCon (h : Inv s) {n : Nat} (hs : s.runCon n = some s') : Inv s' := by
  have hc := h.con
  have hj : s.con≠.ended → s.main.conJoined = false := by
    intro he
    by_contra hj
    exact he (hc.joined (by simpa using hj))
  unfold State.runCon at hs
  cases hcon : s.con with
  | get =>
    simp only [hcon] at hs
    split at hs
    · cases hs
    · rename_i ha
      have ha : s.conQueue.asleep = false := by simpa using ha
      have hsound := Queue.Sound.get ha
      rcases s.conQueue.get_cases with ⟨pattern,items,hi,hg⟩ | ⟨hi,hcl,hg⟩ | ⟨hi,hcl,hg⟩
      · rw [hg] at hs hsound
        cases hs
        exact h.conGet hcon (hj (by simp [hcon])) hsound rfl (by simp) (by simp [hi])
      · rw [hg] at hs
        cases hs
        refine h.conGoes (by simp) (by simp [hcon]) rfl (by simp [hcon]) (by simp) (by simp)
          (by simp) fun _ => ⟨hi,?_⟩
        rw [← hc.closed, hcl]
      · rw [hg] at hs hsound
        cases hs
        exact h.conGet (c := .get) hcon (hj (by simp [hcon])) hsound rfl (by simp) (by simp)
  | loop pat complete =>
    simp only [hcon, Option.some.injEq] at hs
    subst hs
    have hcomplete := hc.complete
    rw [hcon] at hcomplete
    have hj := hj (by simp [hcon])
    split
    · rename_i hpat
      exact h.conGoes (fun he => by cases hj.symm.trans he) (by simp [hcon, hpat]) (by simp)
        (by simp [hcon]) (by simp) (by simp) (by simp) (by simp)
    · rename_i hpat
      exact h.conGoes (fun he => by cases hj.symm.trans he) (by simp [hcon]) rfl (by simp [hcon])
        hcomplete (by simp) (fun _ => hpat) (by simp)
  | timeout pat complete =>
    simp only [hcon, Option.some.injEq] at hs
    subst hs
    have hcomplete := hc.complete
    have hwaits := hc.waits
    rw [hcon] at hcomplete hwaits
    have hj := hj (by simp [hcon])
    refine h.conGoes (fun he => by cases hj.symm.trans he) (by simp [hcon]) rfl (by simp [hcon])
      (fun hl => ?_) (by simp) (fun _ => hwaits rfl) (by simp)
    cases (Bool.or_eq_true _ _).mp hl with
    | inl hl => exact hcomplete hl
    | inr hl => exact hc.closed.symm.trans hl
  | poll pat complete =>
    simp only [hcon, Option.some.injEq] at hs
    subst hs
    have hcomplete := hc.complete
    have hwaits := hc.waits
    rw [hcon] at hcomplete hwaits
    have hj := hj (by simp [hcon])
    exact h.conGoes (fun he => by cases hj.symm.trans he) (by simp [hcon]) rfl (by simp [hcon])
      hcomplete (by simp) (fun _ => hwaits rfl) (by simp)
  | check pat complete haveData =>
    simp only [hcon] at hs
    have hcomplete := hc.complete
    have hwaits := hc.waits
    have hfinds := hc.finds
    rw [hcon] at hcomplete hwaits hfinds
    have hj := hj (by simp [hcon])
    split at hs
    · rename_i hdata
      cases hs
      exact h.conGoes (fun he => by cases hj.symm.trans he) (by simp [hcon]) rfl (by simp [hcon])
        hcomplete (fun _ => hfinds hdata) (fun _ => hwaits rfl) (by simp)
    · split at hs
      · rename_i hdone
        cases hs
        have hpat : pat≠[] := hwaits rfl
        have hclosed : s.main.conClosed = true := by
          cases (Bool.or_eq_true _ _).mp hdone with
          | inl hl => exact hcomplete hl
          | inr hl => exact hc.closed.symm.trans hl
        have hmain : s.main≠.boot := by
          intro hb
          rw [hb] at hclosed
          cases hclosed
        refine h.conFails _ hpat hj (fun hl => by rw [hl, Bool.true_or]) fun hm => ?_
        by_cases hfifo : s.conFifo = []
        · obtain ⟨-,seen,ho,hp⟩ := hm
          refine .inr (.inr ⟨hmain,fun hle => hpat ?_⟩)
          have hlen := hle.length_le
          rw [hcon] at hp
          simp only [ho, hp, hfifo, List.length_append, Con.rest, List.append_nil] at hlen
          exact List.length_eq_zero_iff.mp (by omega)
        · exact .inr (.inl (by simp [hfifo]))
      · rename_i hdone
        cases hs
        exact h.conGoes (fun he => by cases hj.symm.trans he) (by simp [hcon]) rfl (by simp [hcon])
          (by simp) (by simp) (fun _ => hwaits rfl) (by simp)
  | read pat complete =>
    simp only [hcon] at hs
    have hcomplete := hc.complete
    have hwaits := hc.waits
    rw [hcon] at hcomplete hwaits
    have hj := hj (by simp [hcon])
    have hpat : pat≠[] := hwaits rfl
    split at hs
    · cases hs
      exact h.conGoes (fun he => by cases hj.symm.trans he) (by simp [hcon]) rfl (by simp [hcon])
        hcomplete (by simp) (fun _ => hpat) (by simp)
    · split at hs
      · rename_i hn
        cases hs
        obtain ⟨-,hn,-,hn'⟩ := hn
        by_cases hsame : s.conFifo.take n = pat.take n
        · rw [if_pos hsame]
          refine ⟨⟨hc.sound,hc.closed,hcomplete,by simp,by simp,by simp,fun he => ?_,?_⟩,
            h.kbd.frame rfl rfl rfl rfl rfl rfl rfl id,h.flag⟩
          · cases hj.symm.trans he
          · cases hc.verdict with
            | inl hm =>
              obtain ⟨-,seen,ho,hp⟩ := hm
              refine .inl ⟨rfl,seen++pat.take n,?_,?_⟩
              · rw [ho, ← hsame, List.append_assoc, List.take_append_drop]
              · rw [hp, hcon, Con.rest, Con.rest, List.append_assoc, ← List.append_assoc (pat.take n),
                  List.take_append_drop]
            | inr hw =>
              refine .inr ⟨hw.1,hw.2.imp_right fun hf => ?_⟩
              rw [hcon] at hf
              cases hf
        · rw [if_neg hsame]
          refine h.conFails s.late hpat hj id fun hm => .inl ?_
          obtain ⟨-,seen,ho,hp⟩ := hm
          change Apart s.expected.flatten s.output
          rw [hp, ho, hcon, Con.rest, ← List.append_assoc]
          have happ := (apart_of_take seen hn hn' hsame).append s.conQueue.items.flatten []
          rwa [List.append_nil] at happ
      · cases hs
  | verdict pat =>
    simp only [hcon, Option.some.injEq] at hs
    subst hs
    exact h.conVerdict hcon (hj (by simp [hcon]))
  | ended => simp [hcon] at hs

theorem Inv.kbdGoes (h : Inv s) {q : Queue Bytes} {k : Kbd} {fifo : Bytes} (hq : q.Sound)
    (hclosed : q.closed = s.kbdQueue.closed) (hjoined : s.main = .closed → k = .ended)
    (hfails : k.fails = false) (hfails' : s.kbd.fails = false)
    (hended : k = .ended → q.items = [] ∧ s.main.kbdClosed = true)
    (hwork : fifo++(k.rest++q.items.flatten) =
      s.kbdFifo++(s.kbd.rest++s.kbdQueue.items.flatten)) :
    Inv { s with kbdQueue := q, kbd := k, kbdFifo := fifo } := by
  have hk := h.kbd
  refine ⟨h.con.frame rfl rfl rfl rfl rfl rfl rfl id,
    ⟨hq,hclosed.trans hk.closed,hended,hjoined,?_⟩,h.flag⟩
  cases hk.verdict with
  | inl ht => exact .inl ⟨hfails,by rw [ht.2, hwork]⟩
  | inr hw =>
    refine .inr ⟨hw.1,hw.2.imp_right fun hf => ?_⟩
    rw [hfails'] at hf
    cases hf

theorem Inv.kbdFails (h : Inv s) {pat : Bytes} (hpat : pat≠[]) (hjoined : s.main≠.closed) :
    Inv { s with kbd := .finish pat, full := true } := by
  have hk := h.kbd
  exact ⟨h.con.frame rfl rfl rfl rfl rfl rfl rfl id,
    ⟨hk.sound,hk.closed,by simp,fun hm => absurd hm hjoined,.inr ⟨rfl,.inr (by simp [hpat])⟩⟩,
    fun _ => .inr rfl⟩

theorem Inv.kbdFinish (h : Inv s) {pat : Bytes} (hkbd : s.kbd = .finish pat)
    (hj : s.main≠.closed) :
    Inv { s with kbd := .get, FLAG_FAILURE := s.FLAG_FAILURE || pat≠[] } := by
  have hk := h.kbd
  have hkeep : s.FLAG_FAILURE = true → (s.FLAG_FAILURE || decide (pat≠[])) = true := by
    intro hf
    rw [hf, Bool.true_or]
  refine ⟨h.con.frame rfl rfl rfl rfl rfl rfl rfl hkeep,
    ⟨hk.sound,hk.closed,by simp,fun hm => absurd hm hj,?_⟩,fun hf => ?_⟩
  · cases hk.verdict with
    | inl ht =>
      have hpat : pat = [] := by simpa [hkbd] using ht.1
      refine .inl ⟨rfl,?_⟩
      rw [ht.2, hkbd, hpat]
      rfl
    | inr hw =>
      refine .inr ⟨hw.1,.inl ?_⟩
      cases hw.2 with
      | inl hf => exact hkeep hf
      | inr hf =>
        have hpat : pat≠[] := by simpa [hkbd] using hf
        simp [hpat]
  · change (s.FLAG_FAILURE || decide (pat≠[])) = true at hf
    cases (Bool.or_eq_true _ _).mp hf with
    | inl hf => exact h.flag hf
    | inr hpat =>
      cases hk.verdict with
      | inl ht =>
        have hnone : pat = [] := by simpa [hkbd] using ht.1
        exact absurd hnone (by simpa using hpat)
      | inr hw => exact .inr hw.1

theorem Inv.runKbd (h : Inv s) {ready : Bool} {n : Option Nat}
    (hs : s.runKbd ready n = some s') : Inv s' := by
  have hk := h.kbd
  have hj : s.kbd≠.ended → s.main≠.closed := fun he hm => he (hk.joined hm)
  -- A step inside kbd_proc that leaves the pattern as it is.
  have hgo : ∀ k : Kbd, s.kbd≠.ended → s.kbd.fails = false → k≠.ended → k.fails = false →
      k.rest = s.kbd.rest → Inv { s with kbd := k } := by
    intro k he hf hke hkf hrest
    exact h.kbdGoes hk.sound rfl (fun hm => absurd hm (hj he)) hkf hf (fun hc => absurd hc hke)
      (by rw [hrest])
  unfold State.runKbd at hs
  cases hkbd : s.kbd with
  | get =>
    have hj := hj (by simp [hkbd])
    simp only [hkbd] at hs
    split at hs
    · cases hs
    · rename_i ha
      have hsound := Queue.Sound.get (q := s.kbdQueue) (by simpa using ha)
      rcases s.kbdQueue.get_cases with ⟨pattern,items,hi,hg⟩ | ⟨hi,hcl,hg⟩ | ⟨hi,hcl,hg⟩
      · rw [hg] at hs hsound
        cases hs
        exact h.kbdGoes hsound rfl (fun hm => absurd hm hj) rfl (by simp [hkbd]) (by simp)
          (by simp [hkbd, hi])
      · rw [hg] at hs
        cases hs
        refine h.kbdGoes hk.sound rfl (fun _ => rfl) rfl (by simp [hkbd]) (fun _ => ⟨hi,?_⟩)
          (by simp [hkbd])
        rw [← hk.closed, hcl]
      · rw [hg] at hs hsound
        cases hs
        exact h.kbdGoes (k := .get) hsound rfl (fun hm => absurd hm hj) rfl (by simp [hkbd])
          (by simp) (by simp [hkbd])
  | loop pat =>
    simp only [hkbd, Option.some.injEq] at hs
    subst hs
    have hstart := hgo (if pat = [] then .finish [] else .wait pat)
    rw [hkbd] at hstart
    split at hstart
    · rename_i hpat
      rw [if_pos hpat]
      exact hstart (by simp) rfl (by simp) rfl (by simp [hpat])
    · rename_i hpat
      rw [if_neg hpat]
      exact hstart (by simp) rfl (by simp) rfl rfl
  | wait pat =>
    simp only [hkbd, Option.some.injEq] at hs
    subst hs
    have hgo := fun k => hgo k
    rw [hkbd] at hgo
    split
    · exact hgo _ (by simp) rfl (by simp) rfl rfl
    · exact hgo _ (by simp) rfl (by simp) rfl rfl
  | poll pat =>
    simp only [hkbd, Option.some.injEq] at hs
    subst hs
    rw [hkbd] at hgo
    split
    · exact hgo _ (by simp) rfl (by simp) rfl rfl
    · exact hgo _ (by simp) rfl (by simp) rfl rfl
  | save pat =>
    simp only [hkbd, Option.some.injEq] at hs
    subst hs
    rw [hkbd] at hgo
    exact hgo _ (by simp) rfl (by simp) rfl rfl
  | write pat oldcomplete =>
    have hj := hj (by simp [hkbd])
    simp only [hkbd] at hs
    rw [hkbd] at hgo
    split at hs
    · rename_i hpat
      cases hs
      exact hgo _ (by simp) rfl (by simp) rfl (by simp [hpat])
    · rename_i hpat
      cases n with
      | none =>
        simp only at hs
        split at hs
        · cases hs
          exact h.kbdFails hpat hj
        · cases hs
          exact hgo _ (by simp) rfl (by simp) rfl rfl
      | some n =>
        simp only at hs
        split at hs
        · cases hs
          have hwork : s.kbdFifo++pat.take n++(pat.drop n++s.kbdQueue.items.flatten) =
              s.kbdFifo++(pat++s.kbdQueue.items.flatten) := by
            rw [List.append_assoc, ← List.append_assoc (pat.take n), List.take_append_drop]
          exact h.kbdGoes hk.sound rfl (fun hm => absurd hm hj) rfl (by simp [hkbd]) (by simp)
            (by rw [hkbd]; exact hwork)
        · cases hs
  | finish pat =>
    simp only [hkbd, Option.some.injEq] at hs
    subst hs
    exact h.kbdFinish hkbd (hj (by simp [hkbd]))
  | ended => simp [hkbd] at hs

theorem Inv.exec (h : Inv s) {a : Label} (hs : s.exec a = some s') : Inv s' := by
  cases a with
  | expect pattern => exact h.expect hs
  | sendme pattern => exact h.sendme hs
  | print b => exact h.print hs
  | typed => exact h.typed hs
  | main => exact h.runMain hs
  | con n => exact h.runCon hs
  | kbd ready n => exact h.runKbd hs
  | wakeCon =>
    cases hs
    exact h.wakeCon
  | wakeKbd =>
    cases hs
    exact h.wakeKbd

theorem inv_reachable (hr : system.Reachable s) : Inv s := by
  induction hr with
  | init hs => exact hs ▸ inv_init
  | step _ hs ih => exact ih.exec hs

/-- The verdict of a proxy: without a failure the machine printed what the patterns ask for and
was typed what they say, and a failure is a mismatch, a fifo that was given up too early, or
one without room. -/
theorem proxy_verdict (hr : system.Reachable s) (hc : s.main = .closed) :
    (s.FLAG_FAILURE = false →
      s.expected.flatten <+: s.output ∧ s.input++s.kbdFifo = s.sent.flatten) ∧
    (s.FLAG_FAILURE = true →
      ¬s.expected.flatten <+: s.output ∨ s.late = true ∨ s.full = true) := by
  obtain ⟨hcon,hkbd,hflag⟩ := inv_reachable hr
  have hce := hcon.joined (by rw [hc]; rfl)
  have hke := hkbd.joined hc
  constructor
  · intro hf
    constructor
    · cases hcon.verdict with
      | inl hm =>
        obtain ⟨-,seen,ho,hp⟩ := hm
        refine ⟨s.conFifo,?_⟩
        rw [hp, hce, (hcon.ended hce).1, ho]
        simp
      | inr hw => simp [hf, hce] at hw
    · cases hkbd.verdict with
      | inl ht =>
        rw [ht.2, hke, (hkbd.ended hke).1]
        simp
      | inr hw => simp [hf, hke] at hw
  · intro hf
    cases hflag hf with
    | inl hw =>
      rcases hw with ha | hl | hp
      · exact .inl ha.1
      · exact .inr (.inl hl)
      · exact .inl hp.2
    | inr hfull => exact .inr (.inr hfull)

def goodRun : List Label := List.flatten
  [[.expect [104,105],.sendme [120],.print 104,.print 105],List.replicate 5 (.con 0),
    [.con 2,.con 0,.con 0],List.replicate 5 (.kbd true none),[.kbd true (some 1)],
    List.replicate 3 (.kbd true none),
    [.typed,.main,.main,.con 0,.main,.main,.kbd true none,.main]]

theorem proxy_verdict_hi : ∃ s, system.Reachable s ∧ s.expected = [[104,105]] ∧
    s.expected.flatten <+: s.output ∧ s.input++s.kbdFifo = s.sent.flatten := by
  obtain ⟨s,hr,hc,hf,he⟩ := system.reaches (s := .init) rfl goodRun
    (fun s => s.main = .closed ∧ s.FLAG_FAILURE = false ∧ s.expected = [[104,105]]) (by decide)
  exact ⟨s,hr,he,(proxy_verdict hr hc).1 hf⟩

/-- The poll of con_proc ends with nothing; then the machine prints what is expected and is
done, and con_proc finds the flag before it polls again. -/
example : ∃ s, system.Reachable s ∧ s.main = .closed ∧ s.FLAG_FAILURE = true ∧
    s.expected.flatten = s.output :=
  system.reaches (s := .init) rfl [.expect [104],.con 0,.con 0,.con 0,.con 0,.print 104,.main,.main,
    .con 0,.con 0,.con 0,.main,.main,.kbd true none,.main] _ (by decide)

/-! Once the machine is done both daemons come to their end. -/

def Main.left : Main → Nat
  | .boot => 5
  | .closeCon => 4
  | .joinCon => 3
  | .closeKbd => 2
  | .joinKbd => 1
  | .closed => 0

def Con.left : Con → Nat
  | .ended => 0
  | .get => 1
  | .verdict _ => 2
  | .check _ _ false => 3
  | .read pat _ => 6*pat.length-1
  | .check pat _ true => 6*pat.length
  | .poll pat _ => 6*pat.length+1
  | .timeout pat _ => 6*pat.length+2
  | .loop pat _ => 6*pat.length+3

def Kbd.left : Kbd → Nat
  | .ended => 0
  | .get => 1
  | .finish _ => 2
  | .loop [] => 3
  | .write [] _ => 4
  | .write _ _ => 5
  | .save _ => 6
  | .wait _ | .poll _ => 7
  | .loop _ => 8

def conWork (items : List Bytes) : Nat := (items.map fun pat => 6*pat.length+4).sum

def kbdWork (items : List Bytes) : Nat := (items.map fun _ => 9).sum

def State.left (s : State) : Nat :=
  s.main.left+(s.con.left+conWork s.conQueue.items)+(s.kbd.left+kbdWork s.kbdQueue.items)

theorem Kbd.left_loop (pat : Bytes) : (Kbd.loop pat).left≤8 := by
  cases pat <;> simp [Kbd.left]

theorem Kbd.left_write (pat : Bytes) (oldcomplete : Bool) :
    (Kbd.write pat oldcomplete).left = if pat = [] then 4 else 5 := by
  cases pat <;> simp [Kbd.left]

theorem Inv.con_runs (h : Inv s) (hc : s.main.conClosed = true) (he : s.con≠.ended) :
    ∃ n s', s.runCon n = some s' ∧ s'.main = s.main ∧ s'.left < s.left := by
  have hcon := h.con
  have hclosed : s.conQueue.closed = true := hcon.closed.trans hc
  have hlen : s.con.waits = true → 0 < s.con.rest.length := fun hw =>
    List.length_pos_of_ne_nil (hcon.waits hw)
  -- A step of con_proc that leaves the queue alone.
  have hgo : ∀ c fifo late flag, s.runCon 1 = some { s with
      con := c, conFifo := fifo, late := late, FLAG_FAILURE := flag } →
      c.left < s.con.left → ∃ n s', s.runCon n = some s' ∧ s'.main = s.main ∧
      s'.left < s.left := by
    intro c fifo late flag hs hlt
    refine ⟨1,_,hs,rfl,?_⟩
    simp only [State.left]
    omega
  cases hpc : s.con with
  | get =>
    have ha := hcon.sound.awake hclosed
    rcases s.conQueue.get_cases with ⟨pattern,items,hi,hg⟩ | ⟨hi,hcl,hg⟩ | ⟨hi,hcl,hg⟩
    · refine ⟨0,{ s with
        conQueue := { s.conQueue with items := items }, con := .loop pattern false },?_,rfl,?_⟩
      · simp [State.runCon, hpc, ha, hg]
      · simp only [State.left, hpc, Con.left, conWork, hi, List.map_cons, List.sum_cons]
        omega
    · exact hgo .ended s.conFifo s.late s.FLAG_FAILURE (by simp [State.runCon, hpc, ha, hg])
        (by simp [hpc, Con.left])
    · cases hclosed.symm.trans hcl
  | loop pat complete =>
    refine hgo _ s.conFifo s.late s.FLAG_FAILURE (by simp only [State.runCon, hpc]; rfl) ?_
    rw [hpc]
    split <;> simp only [Con.left] <;> omega
  | timeout pat complete =>
    refine hgo _ s.conFifo s.late s.FLAG_FAILURE (by simp only [State.runCon, hpc]; rfl) ?_
    simp only [hpc, Con.left]
    omega
  | poll pat complete =>
    rw [hpc] at hlen
    have hlen : 0 < pat.length := hlen rfl
    refine hgo _ s.conFifo s.late s.FLAG_FAILURE (by simp only [State.runCon, hpc]; rfl) ?_
    cases hfifo : decide (s.conFifo≠[]) <;> simp only [hpc, Con.left] <;> omega
  | check pat complete haveData =>
    cases haveData with
    | true =>
      rw [hpc] at hlen
      have hlen : 0 < pat.length := hlen rfl
      refine hgo (.read pat complete) s.conFifo s.late s.FLAG_FAILURE (by simp [State.runCon, hpc]) ?_
      simp only [hpc, Con.left]
      omega
    | false =>
      refine hgo (.verdict pat) s.conFifo (s.late || s.conFifo≠[]) s.FLAG_FAILURE
        (by simp [State.runCon, hpc, hclosed]) ?_
      simp only [hpc, Con.left]
      omega
  | read pat complete =>
    rw [hpc] at hlen
    have hlen : 0 < pat.length := hlen rfl
    have hfifo : s.conFifo≠[] := hcon.finds (by rw [hpc]; rfl)
    have hflen := List.length_pos_of_ne_nil hfifo
    have hread : s.runCon 1 = some { s with
        conFifo := s.conFifo.drop 1
        con := if s.conFifo.take 1 = pat.take 1 then .loop (pat.drop 1) complete
          else .verdict pat } := by
      simp only [State.runCon, hpc, if_neg hfifo]
      exact if_pos ⟨Nat.one_pos,hlen,by decide,hflen⟩
    refine hgo _ _ s.late s.FLAG_FAILURE hread ?_
    rw [hpc]
    split <;> simp only [Con.left, List.length_drop] <;> omega
  | verdict pat =>
    refine hgo .get s.conFifo s.late (s.FLAG_FAILURE || pat≠[]) (by simp [State.runCon, hpc]) ?_
    simp [hpc, Con.left]
  | ended => exact absurd hpc he

theorem Inv.kbd_runs (h : Inv s) (hc : s.main.kbdClosed = true) (he : s.kbd≠.ended) :
    ∃ ready n s', s.runKbd ready n = some s' ∧ s'.main = s.main ∧ s'.left < s.left := by
  have hkbd := h.kbd
  have hclosed : s.kbdQueue.closed = true := hkbd.closed.trans hc
  have hgo : ∀ k fifo flag, s.runKbd true (some s.kbd.rest.length) = some { s with
      kbd := k, kbdFifo := fifo, FLAG_FAILURE := flag } → k.left < s.kbd.left →
      ∃ ready n s', s.runKbd ready n = some s' ∧ s'.main = s.main ∧ s'.left < s.left := by
    intro k fifo flag hs hlt
    refine ⟨true,_,_,hs,rfl,?_⟩
    simp only [State.left]
    omega
  cases hpc : s.kbd with
  | get =>
    have ha := hkbd.sound.awake hclosed
    rcases s.kbdQueue.get_cases with ⟨pattern,items,hi,hg⟩ | ⟨hi,hcl,hg⟩ | ⟨hi,hcl,hg⟩
    · refine ⟨true,none,{ s with
        kbdQueue := { s.kbdQueue with items := items }, kbd := .loop pattern },?_,rfl,?_⟩
      · simp [State.runKbd, hpc, ha, hg]
      · have hloop := Kbd.left_loop pattern
        have hget : Kbd.get.left = 1 := rfl
        simp only [State.left, hpc, hget, kbdWork, hi, List.map_cons, List.sum_cons]
        omega
    · exact hgo .ended s.kbdFifo s.FLAG_FAILURE (by simp [State.runKbd, hpc, ha, hg])
        (by simp [hpc, Kbd.left])
    · cases hclosed.symm.trans hcl
  | loop pat =>
    refine hgo _ s.kbdFifo s.FLAG_FAILURE (by simp only [State.runKbd, hpc]; rfl) ?_
    rw [hpc]
    cases pat <;> simp [Kbd.left]
  | wait pat =>
    refine hgo (.save pat) s.kbdFifo s.FLAG_FAILURE (by simp [State.runKbd, hpc, hclosed]) ?_
    simp [hpc, Kbd.left]
  | poll pat =>
    refine hgo (.save pat) s.kbdFifo s.FLAG_FAILURE (by simp [State.runKbd, hpc]) ?_
    simp [hpc, Kbd.left]
  | save pat =>
    refine hgo _ s.kbdFifo s.FLAG_FAILURE (by simp only [State.runKbd, hpc]; rfl) ?_
    rw [hpc, Kbd.left_write]
    split <;> simp [Kbd.left]
  | write pat oldcomplete =>
    by_cases hpat : pat = []
    · refine hgo (.loop []) s.kbdFifo s.FLAG_FAILURE (by simp [State.runKbd, hpc, hpat]) ?_
      rw [hpc, Kbd.left_write, if_pos hpat, Kbd.left]
      omega
    · have hlen := List.length_pos_of_ne_nil hpat
      refine hgo (.write [] oldcomplete) (s.kbdFifo++pat) s.FLAG_FAILURE
        (by simp [State.runKbd, hpc, hpat, hlen]) ?_
      rw [hpc, Kbd.left_write, Kbd.left_write, if_neg hpat, if_pos rfl]
      omega
  | finish pat =>
    refine hgo .get s.kbdFifo (s.FLAG_FAILURE || pat≠[]) (by simp [State.runKbd, hpc]) ?_
    simp [hpc, Kbd.left]
  | ended => exact absurd hpc he

theorem Inv.closes (h : Inv s) (hb : s.main≠.boot) (hd : s.main≠.closed) :
    ∃ a s', s.exec a = some s' ∧ s'.main≠.boot ∧ s'.left < s.left := by
  have hmain : ∀ m q r, s.runMain = some { s with main := m, conQueue := q, kbdQueue := r } →
      m≠.boot → m.left < s.main.left → q.items = s.conQueue.items → r.items = s.kbdQueue.items →
      ∃ a s', s.exec a = some s' ∧ s'.main≠.boot ∧ s'.left < s.left := by
    intro m q r hs hm hlt hq hr
    refine ⟨.main,_,hs,hm,?_⟩
    simp only [State.left, hq, hr]
    omega
  cases hpc : s.main with
  | boot => exact absurd hpc hb
  | closeCon =>
    exact hmain .joinCon s.conQueue.close s.kbdQueue (by simp [State.runMain, hpc]) (by simp)
      (by simp [hpc, Main.left]) rfl rfl
  | joinCon =>
    by_cases he : s.con = .ended
    · exact hmain .closeKbd s.conQueue s.kbdQueue (by simp [State.runMain, hpc, he]) (by simp)
        (by simp [hpc, Main.left]) rfl rfl
    · obtain ⟨n,s',hs,hm,hlt⟩ := h.con_runs (by rw [hpc]; rfl) he
      exact ⟨.con n,s',hs,by rw [hm, hpc]; simp,hlt⟩
  | closeKbd =>
    exact hmain .joinKbd s.conQueue s.kbdQueue.close (by simp [State.runMain, hpc]) (by simp)
      (by simp [hpc, Main.left]) rfl rfl
  | joinKbd =>
    by_cases he : s.kbd = .ended
    · exact hmain .closed s.conQueue s.kbdQueue (by simp [State.runMain, hpc, he]) (by simp)
        (by simp [hpc, Main.left]) rfl rfl
    · obtain ⟨ready,n,s',hs,hm,hlt⟩ := h.kbd_runs (by rw [hpc]; rfl) he
      exact ⟨.kbd ready n,s',hs,by rw [hm, hpc]; simp,hlt⟩
  | closed => exact absurd hpc hd

end TinyOS.Testing.Proxy
