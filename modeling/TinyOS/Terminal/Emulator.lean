import TinyOS.Lib.Transition
import Mathlib.Data.Fin.Basic
import Mathlib.Data.List.Basic

/-! The program terminal: io_loop relays bytes between the standard streams and the fifos of
a virtual machine. A file found ready is taken out of the poll set until its byte is
transferred. -/
namespace TinyOS.Terminal.Emulator
open Transition

abbrev Bytes := List UInt8

/-- Where the program is: opening the fifos, in poll, before its two transfers, or closing the
fifos. It blocks where a read or write of one byte has to wait, and writing to a fifo without
a reader kills it. -/
inductive Pc where
  | open
  | poll
  | kbd (xkbd xcon : Bool)
  | con (xcon : Bool)
  | close
  | blocked
  | killed
  deriving DecidableEq

structure State where
  pc : Pc
  /-- fds[i].fd -/
  fds : Fin 4 → Int
  state : Fin 4 → Bool
  errst : Fin 4 → Bool
  /-- The bytes that wait at standard input, whether it has ended, and whether standard output
  takes a byte. -/
  stdin : Bytes
  eof : Bool
  room : Bool
  /-- The fifos, and whether the machine has them open. -/
  kbdPipe : Bytes
  conPipe : Bytes
  reader : Bool
  writer : Bool
  /-- In this connection: what was taken from standard input and what the machine has read of
  it, what the machine has printed and what was shown of it. -/
  taken : Bytes
  delivered : Bytes
  printed : Bytes
  shown : Bytes

def State.init : State where
  pc := .open
  fds i := if i = 1 then 1 else 0
  state _ := false
  errst _ := false
  stdin := []
  eof := false
  room := true
  kbdPipe := []
  conPipe := []
  reader := false
  writer := false
  taken := []
  delivered := []
  printed := []
  shown := []

def flip (fd : Int) : Int := -fd-1

def State.polled (s : State) (i : Fin 4) : Prop := 0≤ s.fds i

instance (s : State) (i : Fin 4) : Decidable (s.polled i) := inferInstanceAs (Decidable (0≤ s.fds i))

def State.ready (cap : Nat) (s : State) (i : Fin 4) : Bool :=
  if i = 0 then s.stdin≠[] || s.eof
  else if i = 1 then s.room
  else if i = 2 then s.kbdPipe.length < cap
  else s.conPipe≠[]

def State.err (s : State) (i : Fin 4) : Bool :=
  if i = 2 then !s.reader else if i = 3 then !s.writer else false

/-- The indicators after a poll; ready files are flipped. -/
def State.update (cap : Nat) (s : State) : State :=
  { s with
    fds := fun i => if s.polled i ∧ s.ready cap i = true then flip (s.fds i) else s.fds i
    state := fun i => if s.polled i then s.ready cap i else s.state i
    errst := fun i => if s.polled i then s.err i else s.errst i }

def State.flips (s : State) (i j : Fin 4) : State :=
  { s with fds := fun k => if k = i ∨ k = j then flip (s.fds k) else s.fds k }

def State.transferKbd (cap : Nat) (s : State) (xcon : Bool) : State :=
  match s.stdin with
  | b::stdin =>
    if !s.reader then { s with pc := .killed }
    else if s.kbdPipe.length < cap then
      { s.flips 0 2 with
        pc := .con xcon, stdin := stdin, taken := s.taken++[b], kbdPipe := s.kbdPipe++[b] }
    else { s with pc := .blocked }
  | [] => if s.eof then { s.flips 0 2 with pc := .con xcon } else { s with pc := .blocked }

/-- transfer_byte(3, 1, confd, 1); room is whether standard output takes more then. -/
def State.transferCon (s : State) (room : Bool) : State :=
  match s.conPipe with
  | b::conPipe =>
    if s.room then
      { s.flips 3 1 with pc := .poll, conPipe := conPipe, shown := s.shown++[b], room := room }
    else { s with pc := .blocked }
  | [] => if s.writer then { s with pc := .blocked } else { s.flips 3 1 with pc := .poll }

def State.run (cap : Nat) (s : State) (room : Bool) : Option State :=
  match s.pc with
  | .poll =>
    if ∃ i, s.polled i ∧ (s.ready cap i = true ∨ s.err i = true) then
      let s := s.update cap
      let xkbd := s.state 0 && s.state 2
      let xcon := s.state 1 && s.state 3
      if !xkbd && !xcon && (s.errst 2 || s.errst 3) then some { s with pc := .close }
      else some { s with pc := .kbd xkbd xcon }
    else none
  | .kbd xkbd xcon =>
    some (if xkbd then s.transferKbd cap xcon else { s with pc := .con xcon })
  | .con xcon => some (if xcon then s.transferCon room else { s with pc := .poll })
  | .close => some { s with pc := .open }
  | .open | .blocked | .killed => none

/-- open_pipe of both fifos, by the program and by terminal_init. -/
def State.connect (s : State) (kbdfd confd : Nat) : Option State :=
  if s.pc = .open ∧ s.reader = false ∧ s.writer = false then
    some { s with
      pc := .poll
      fds := fun i => if i = 2 then kbdfd else if i = 3 then confd else s.fds i
      reader := true
      writer := true
      kbdPipe := []
      conPipe := []
      taken := []
      delivered := []
      printed := []
      shown := [] }
  else none

inductive Label where
  /-- The user types a byte, ends the input, or has read what is on the screen. -/
  | type (b : UInt8)
  | eof
  | drain
  /-- The machine writes and reads its terminal, and closes it: the console first. -/
  | vmPrint (b : UInt8)
  | vmRead
  | vmCloseCon
  | vmCloseKbd
  | connect (kbdfd confd : Nat)
  | run (room : Bool)
  deriving DecidableEq

def State.exec (cap : Nat) (s : State) : Label → Option State
  | .type b => if s.eof then none else some { s with stdin := s.stdin++[b] }
  | .eof => some { s with eof := true }
  | .drain => some { s with room := true }
  | .vmPrint b =>
    if s.writer then some { s with conPipe := s.conPipe++[b], printed := s.printed++[b] }
    else none
  | .vmRead =>
    match s.kbdPipe with
    | b::kbdPipe =>
      if s.reader then some { s with kbdPipe := kbdPipe, delivered := s.delivered++[b] } else none
    | [] => none
  | .vmCloseCon => some { s with writer := false }
  | .vmCloseKbd => if s.writer then none else some { s with reader := false }
  | .connect kbdfd confd => s.connect kbdfd confd
  | .run room => s.run cap room

def system (cap : Nat) : System State Label where
  init s := s = .init
  next := State.exec cap

section
variable {cap : Nat} {s s' : State}

/-- The files out of the poll set are ready, and at each place of the loop some transfer is not
held back. -/
structure Inv (cap : Nat) (s : State) : Prop where
  runs : s.pc≠.blocked
  held : ∀ i, ¬s.polled i → s.state i = true ∧ s.ready cap i = true
  poll : s.pc = .poll → (s.polled 0 ∨ s.polled 2) ∧ (s.polled 1 ∨ s.polled 3)
  kbd : ∀ xkbd xcon, s.pc = .kbd xkbd xcon →
    (xkbd = true ↔ ¬s.polled 0 ∧ ¬s.polled 2) ∧ (xcon = true ↔ ¬s.polled 1 ∧ ¬s.polled 3)
  con : ∀ xcon, s.pc = .con xcon →
    (s.polled 0 ∨ s.polled 2) ∧ (xcon = true ↔ ¬s.polled 1 ∧ ¬s.polled 3)
  order : s.reader = false → s.writer = false
  errors : ∀ i, i = 2 ∨ i = 3 → ¬s.polled i → s.errst i = true → s.writer = false
  away : s.pc = .close ∨ s.pc = .open → s.writer = false
  kbdBytes : s.taken = s.delivered++s.kbdPipe
  conBytes : s.printed = s.shown++s.conPipe
  lost : s.pc = .close → s.conPipe≠[] → s.state 1 = false
  gone : s.pc = .killed → s.reader = false

theorem inv_init : Inv cap .init := by
  have hp : ∀ i, State.init.polled i := by decide
  exact ⟨by simp [State.init],fun i hi => absurd (hp i) hi,by simp [State.init],
    by simp [State.init],by simp [State.init],by simp [State.init],fun i _ hi => absurd (hp i) hi,
    by simp [State.init],rfl,rfl,by simp [State.init],by simp [State.init]⟩

theorem flip_neg (fd : Int) : 0≤flip fd ↔ ¬0≤fd := by
  rw [flip]
  omega

theorem polled_flips (s : State) (i j k : Fin 4) :
    (s.flips i j).polled k ↔ if k = i ∨ k = j then ¬s.polled k else s.polled k := by
  simp only [State.polled, State.flips]
  split
  · exact flip_neg (s.fds k)
  · exact Iff.rfl

theorem update_fds (s : State) (i : Fin 4) : (s.update cap).fds i =
    if s.polled i ∧ s.ready cap i = true then flip (s.fds i) else s.fds i := rfl

theorem polled_update (s : State) (i : Fin 4) :
    (s.update cap).polled i ↔ s.polled i ∧ s.ready cap i = false := by
  have hf := @update_fds cap s i
  by_cases h : s.polled i ∧ s.ready cap i = true
  · rw [if_pos h] at hf
    refine ⟨fun hp => ?_,fun hp => by simp [h.2] at hp⟩
    have hp' : 0≤(s.update cap).fds i := hp
    rw [hf, flip_neg] at hp'
    exact absurd h.1 hp'
  · rw [if_neg h] at hf
    have he : (s.update cap).polled i ↔ s.polled i := by
      change 0≤(s.update cap).fds i ↔ 0≤ s.fds i
      rw [hf]
    rw [he]
    refine ⟨fun hp => ⟨hp,?_⟩,fun hp => hp.1⟩
    cases hr : s.ready cap i with
    | true => exact absurd ⟨hp,hr⟩ h
    | false => rfl

theorem Inv.world (h : Inv cap s) (hpc : s'.pc = s.pc) (hfds : s'.fds = s.fds)
    (hstate : s'.state = s.state) (herr : s'.errst = s.errst)
    (hready : ∀ i, s.ready cap i = true → s'.ready cap i = true)
    (horder : s'.reader = false → s'.writer = false)
    (hwriter : s.writer = false → s'.writer = false)
    (hkbd : s'.taken = s'.delivered++s'.kbdPipe) (hcon : s'.printed = s'.shown++s'.conPipe)
    (hlost : s.writer = false → s'.conPipe = s.conPipe)
    (hreader : s.reader = false → s'.reader = false) : Inv cap s' := by
  have hp : ∀ i, s'.polled i ↔ s.polled i := fun i => by rw [State.polled, State.polled, hfds]
  refine ⟨by rw [hpc]; exact h.runs,fun i hi => ?_,fun hc => ?_,fun x y hc => ?_,fun y hc => ?_,
    horder,fun i hi hn he => ?_,fun hc => ?_,hkbd,hcon,fun hc hne => ?_,
    fun hc => hreader (h.gone (hpc.symm.trans hc))⟩
  · rw [hp] at hi
    obtain ⟨h1,h2⟩ := h.held i hi
    exact ⟨by rw [hstate]; exact h1,hready i h2⟩
  · simp only [hp]
    exact h.poll (hpc.symm.trans hc)
  · simp only [hp]
    exact h.kbd x y (hpc.symm.trans hc)
  · simp only [hp]
    exact h.con y (hpc.symm.trans hc)
  · rw [hp] at hn
    rw [herr] at he
    exact hwriter (h.errors i hi hn he)
  · rw [hpc] at hc
    exact hwriter (h.away hc)
  · rw [hpc] at hc
    rw [hlost (h.away (.inl hc))] at hne
    rw [hstate]
    exact h.lost hc hne

theorem Inv.connect (h : Inv cap s) {kbdfd confd : Nat} (hs : s.connect kbdfd confd = some s') :
    Inv cap s' := by
  unfold State.connect at hs
  split at hs
  · cases hs
    have hp2 : 0≤(kbdfd : Int) := Int.natCast_nonneg kbdfd
    have hp3 : 0≤(confd : Int) := Int.natCast_nonneg confd
    refine ⟨by simp,fun i hi => ?_,fun _ => ⟨.inr hp2,.inr hp3⟩,by simp,by simp,by simp,
      fun i hi hn => ?_,by simp,rfl,rfl,by simp,by simp⟩
    · have hi2 : i≠2 := fun he => hi (by rw [he]; exact hp2)
      have hi3 : i≠3 := fun he => hi (by rw [he]; exact hp3)
      have hpi : ¬s.polled i := by
        simpa only [State.polled, if_neg hi2, if_neg hi3] using hi
      obtain ⟨h1,h2⟩ := h.held i hpi
      refine ⟨h1,?_⟩
      unfold State.ready at h2 ⊢
      split at h2
      · rename_i h0
        rw [if_pos h0]
        exact h2
      · rename_i h0
        rw [if_neg h0]
        split at h2
        · rename_i h1
          rw [if_pos h1]
          exact h2
        · rename_i h1
          have := i.isLt
          exfalso
          omega
    · cases hi with
      | inl hi =>
        rw [hi] at hn
        exact absurd hp2 hn
      | inr hi =>
        rw [hi] at hn
        exact absurd hp3 hn
  · cases hs

theorem state_update (h : Inv cap s) (i : Fin 4) :
    (s.update cap).state i = true ↔ ¬(s.update cap).polled i := by
  have hs : (s.update cap).state i = if s.polled i then s.ready cap i else s.state i := rfl
  rw [polled_update, hs]
  by_cases hp : s.polled i
  · simp [hp]
  · simp [hp, (h.held i hp).1]

theorem errst_update (h : Inv cap s) {i : Fin 4} (hi : i = 2 ∨ i = 3)
    (he : (s.update cap).errst i = true) : s.writer = false := by
  have hs : (s.update cap).errst i = if s.polled i then s.err i else s.errst i := rfl
  rw [hs] at he
  by_cases hpi : s.polled i
  · rw [if_pos hpi] at he
    cases hi with
    | inl hi =>
      rw [hi] at he
      exact h.order (by simpa [State.err] using he)
    | inr hi =>
      rw [hi] at he
      simpa [State.err] using he
  · rw [if_neg hpi] at he
    exact h.errors i hi hpi he

theorem held_update (h : Inv cap s) {i : Fin 4} (hi : ¬(s.update cap).polled i) :
    (s.update cap).state i = true ∧ s.ready cap i = true := by
  refine ⟨(state_update h i).mpr hi,?_⟩
  rw [polled_update] at hi
  by_cases hp : s.polled i
  · cases hr : s.ready cap i with
    | true => rfl
    | false => exact absurd ⟨hp,hr⟩ hi
  · exact (h.held i hp).2

theorem Inv.poll_step (h : Inv cap s) (hpc : s.pc = .poll) {room : Bool}
    (hs : s.run cap room = some s') : Inv cap s' := by
  rw [State.run, hpc] at hs
  dsimp only at hs
  split at hs
  · have hx : ∀ i j : Fin 4, ((s.update cap).state i && (s.update cap).state j) = true ↔
        ¬(s.update cap).polled i ∧ ¬(s.update cap).polled j := fun i j => by
      rw [Bool.and_eq_true, state_update h, state_update h]
    have herr : ∀ i, i = 2 ∨ i = 3 → (s.update cap).errst i = true → s.writer = false :=
      fun i hi he => errst_update h hi he
    split at hs
    · rename_i hb
      cases hs
      simp only [Bool.and_eq_true, Bool.not_eq_true', Bool.or_eq_true] at hb
      obtain ⟨⟨_,hcon⟩,he⟩ := hb
      have hw : s.writer = false :=
        he.elim (herr 2 (.inl rfl)) (herr 3 (.inr rfl))
      refine ⟨by simp,fun i hi => held_update h hi,by simp,by simp,by simp,h.order,
        fun i hi _ => herr i hi,fun _ => hw,h.kbdBytes,h.conBytes,fun _ hne => ?_,
        by simp⟩
      -- the console is readable, so what stands in the way is standard output
      have h3 : (s.update cap).state 3 = true := by
        rw [state_update h, polled_update]
        have hne' : s.conPipe≠[] := hne
        have hr : s.ready cap 3 = true := by simpa [State.ready] using hne'
        simp [hr]
      rw [h3, Bool.and_true] at hcon
      exact hcon
    · cases hs
      refine ⟨by simp,fun i hi => held_update h hi,by simp,fun x y he => ?_,by simp,h.order,
        fun i hi _ => herr i hi,by simp,h.kbdBytes,h.conBytes,by simp,by simp⟩
      cases he
      exact ⟨hx 0 2,hx 1 3⟩
  · cases hs

theorem flips_held {i j k : Fin 4} (hi : ¬s.polled i) (hj : ¬s.polled j)
    (hk : ¬(s.flips i j).polled k) : k≠i ∧ k≠j ∧ ¬s.polled k := by
  rw [polled_flips] at hk
  split at hk
  · rename_i h
    rcases h with rfl|rfl
    · exact absurd hi hk
    · exact absurd hj hk
  · rename_i h
    exact ⟨fun he => h (.inl he),fun he => h (.inr he),hk⟩

theorem polled_flips_of_ne {i j k : Fin 4} (hi : k≠i) (hj : k≠j) :
    (s.flips i j).polled k ↔ s.polled k := by
  rw [polled_flips, if_neg (fun h => h.elim hi hj)]

theorem Inv.transferKbd (h : Inv cap s) {xcon : Bool} (hpc : s.pc = .kbd true xcon) :
    Inv cap (s.transferKbd cap xcon) := by
  obtain ⟨hk,hc⟩ := h.kbd _ _ hpc
  obtain ⟨h0,h2⟩ := hk.mp rfl
  have hin : s.stdin≠[] ∨ s.eof = true := by simpa [State.ready] using (h.held 0 h0).2
  have hroom : s.kbdPipe.length < cap := by simpa [State.ready] using (h.held 2 h2).2
  have hp0 : (s.flips 0 2).polled 0 := (polled_flips s 0 2 0).mpr h0
  have hcon : xcon = true ↔ ¬(s.flips 0 2).polled 1 ∧ ¬(s.flips 0 2).polled 3 := by
    rw [polled_flips_of_ne (by decide) (by decide), polled_flips_of_ne (by decide) (by decide)]
    exact hc
  have hheld : ∀ t : State, t.room = s.room → t.conPipe = s.conPipe →
      ∀ i, ¬(s.flips 0 2).polled i → s.state i = true ∧ t.ready cap i = true :=
    fun t hr hp i hi => by
      obtain ⟨hi0,hi2,hn⟩ := flips_held h0 h2 hi
      obtain ⟨hst,hrd⟩ := h.held i hn
      refine ⟨hst,?_⟩
      simp only [State.ready, if_neg hi0, if_neg hi2, hr, hp] at hrd ⊢
      exact hrd
  have herr : ∀ i, i = 2 ∨ i = 3 → ¬(s.flips 0 2).polled i → s.errst i = true →
      s.writer = false := fun i hi hn => h.errors i hi (flips_held h0 h2 hn).2.2
  unfold State.transferKbd
  split
  · rename_i b stdin hb
    split
    · rename_i hr
      exact ⟨by simp,h.held,by simp,by simp,by simp,h.order,h.errors,by simp,h.kbdBytes,
        h.conBytes,by simp,fun _ => by simpa using hr⟩
    · refine ⟨by simp,hheld _ rfl rfl,by simp,by simp,fun x hx => ?_,h.order,herr,by simp,?_,
        h.conBytes,by simp,by simp⟩
      · cases hx
        exact ⟨.inl hp0,hcon⟩
      · change s.taken++[b] = s.delivered++(s.kbdPipe++[b])
        rw [h.kbdBytes, List.append_assoc]
  · rename_i hb
    rw [if_pos (hin.resolve_left (fun hne => hne hb))]
    refine ⟨by simp,hheld _ rfl rfl,by simp,by simp,fun x hx => ?_,h.order,herr,by simp,
      h.kbdBytes,h.conBytes,by simp,by simp⟩
    cases hx
    exact ⟨.inl hp0,hcon⟩

theorem Inv.transferCon (h : Inv cap s) (hpc : s.pc = .con true) (room : Bool) :
    Inv cap (s.transferCon room) := by
  obtain ⟨hk,hc⟩ := h.con _ hpc
  obtain ⟨h1,h3⟩ := hc.mp rfl
  have hout : s.room = true := by simpa [State.ready] using (h.held 1 h1).2
  have hin : s.conPipe≠[] := by simpa [State.ready] using (h.held 3 h3).2
  unfold State.transferCon
  split
  · rename_i b conPipe hb
    rw [if_pos hout]
    have hp3 : (s.flips 3 1).polled 3 := (polled_flips s 3 1 3).mpr h3
    have hkbd : (s.flips 3 1).polled 0 ∨ (s.flips 3 1).polled 2 := by
      rw [polled_flips_of_ne (by decide) (by decide), polled_flips_of_ne (by decide) (by decide)]
      exact hk
    refine ⟨by simp,fun i hi => ?_,fun _ => ⟨hkbd,.inr hp3⟩,by simp,by simp,h.order,
      fun i hi hn => h.errors i hi (flips_held h3 h1 hn).2.2,by simp,h.kbdBytes,?_,by simp,
      by simp⟩
    · obtain ⟨hi3,hi1,hn⟩ := flips_held h3 h1 hi
      obtain ⟨hst,hrd⟩ := h.held i hn
      refine ⟨hst,?_⟩
      have hi02 : i = 0 ∨ i = 2 := by omega
      rcases hi02 with rfl|rfl
      · exact hrd
      · exact hrd
    · change s.printed = s.shown++[b]++conPipe
      rw [h.conBytes, hb, List.append_assoc]
      rfl
  · exact absurd ‹_› hin

theorem Inv.run (h : Inv cap s) {room : Bool} (hs : s.run cap room = some s') : Inv cap s' := by
  cases hpc : s.pc with
  | poll => exact h.poll_step hpc hs
  | kbd xkbd xcon =>
    simp only [State.run, hpc, Option.some.injEq] at hs
    cases xkbd with
    | true =>
      rw [← hs]
      exact h.transferKbd hpc
    | false =>
      rw [← hs]
      obtain ⟨hk,hc⟩ := h.kbd _ _ hpc
      refine ⟨by simp,h.held,by simp,by simp,fun x hx => ?_,h.order,h.errors,by simp,h.kbdBytes,
        h.conBytes,by simp,by simp⟩
      cases hx
      refine ⟨?_,hc⟩
      by_contra hn
      rw [not_or] at hn
      exact Bool.false_ne_true (hk.mpr hn)
  | con xcon =>
    simp only [State.run, hpc, Option.some.injEq] at hs
    cases xcon with
    | true =>
      rw [← hs]
      exact h.transferCon hpc room
    | false =>
      rw [← hs]
      obtain ⟨hk,hc⟩ := h.con _ hpc
      refine ⟨by simp,h.held,fun _ => ⟨hk,?_⟩,by simp,by simp,h.order,h.errors,by simp,h.kbdBytes,
        h.conBytes,by simp,by simp⟩
      by_contra hn
      rw [not_or] at hn
      exact Bool.false_ne_true (hc.mpr hn)
  | close =>
    simp only [State.run, hpc, Option.some.injEq] at hs
    rw [← hs]
    exact ⟨by simp,h.held,by simp,by simp,by simp,h.order,h.errors,fun _ => h.away (.inl hpc),
      h.kbdBytes,h.conBytes,by simp,by simp⟩
  | «open» => simp [State.run, hpc] at hs
  | blocked => simp [State.run, hpc] at hs
  | killed => simp [State.run, hpc] at hs

theorem ready_mono (i : Fin 4) (h0 : s.stdin≠[] ∨ s.eof = true → s'.stdin≠[] ∨ s'.eof = true)
    (h1 : s.room = true → s'.room = true) (h2 : s'.kbdPipe.length≤ s.kbdPipe.length)
    (h3 : s.conPipe≠[] → s'.conPipe≠[]) (h : s.ready cap i = true) : s'.ready cap i = true := by
  have hi : i = 0 ∨ i = 1 ∨ i = 2 ∨ i = 3 := by omega
  rcases hi with rfl|rfl|rfl|rfl
  · simpa [State.ready] using h0 (by simpa [State.ready] using h)
  · simpa [State.ready] using h1 (by simpa [State.ready] using h)
  · have hk : s.kbdPipe.length < cap := by simpa [State.ready] using h
    simpa [State.ready] using h2.trans_lt hk
  · simpa [State.ready] using h3 (by simpa [State.ready] using h)

theorem Inv.next (h : Inv cap s) {l : Label} (hs : s.exec cap l = some s') : Inv cap s' := by
  cases l with
  | type b =>
    simp only [State.exec] at hs
    split at hs
    · cases hs
    · cases hs
      exact h.world rfl rfl rfl rfl
        (fun i => ready_mono i (fun _ => .inl (by simp)) id le_rfl id) h.order id h.kbdBytes
        h.conBytes (fun _ => rfl) id
  | eof =>
    cases hs
    exact h.world rfl rfl rfl rfl (fun i => ready_mono i (fun _ => .inr rfl) id le_rfl id) h.order
      id h.kbdBytes h.conBytes (fun _ => rfl) id
  | drain =>
    cases hs
    exact h.world rfl rfl rfl rfl (fun i => ready_mono i id (fun _ => rfl) le_rfl id) h.order id
      h.kbdBytes h.conBytes (fun _ => rfl) id
  | vmPrint b =>
    simp only [State.exec] at hs
    split at hs
    · rename_i hw
      cases hs
      refine h.world rfl rfl rfl rfl (fun i => ready_mono i id id le_rfl (fun _ => by simp)) h.order
        id h.kbdBytes ?_ (fun hn => by simp [hw] at hn) id
      change s.printed++[b] = s.shown++(s.conPipe++[b])
      rw [h.conBytes, List.append_assoc]
    · cases hs
  | vmRead =>
    simp only [State.exec] at hs
    split at hs
    · rename_i b kbdPipe hb
      split at hs
      · cases hs
        refine h.world rfl rfl rfl rfl (fun i => ready_mono i id id ?_ id) h.order id ?_ h.conBytes
          (fun _ => rfl) id
        · rw [hb]
          exact Nat.le_succ _
        · change s.taken = s.delivered++[b]++kbdPipe
          rw [h.kbdBytes, hb, List.append_assoc]
          rfl
      · cases hs
    · cases hs
  | vmCloseCon =>
    cases hs
    exact h.world rfl rfl rfl rfl (fun i => ready_mono i id id le_rfl id) (fun _ => rfl)
      (fun _ => rfl) h.kbdBytes h.conBytes (fun _ => rfl) id
  | vmCloseKbd =>
    simp only [State.exec] at hs
    split at hs
    · cases hs
    · rename_i hw
      cases hs
      exact h.world rfl rfl rfl rfl (fun i => ready_mono i id id le_rfl id)
        (fun _ => by simpa using hw) id h.kbdBytes h.conBytes (fun _ => rfl) (fun _ => rfl)
  | connect kbdfd confd => exact h.connect hs
  | run room => exact h.run hs

theorem inv_reachable (h : (system cap).Reachable s) : Inv cap s := by
  refine System.invariant _ (Inv cap) (fun s hs => ?_) (fun s l s' ih hs => ih.next hs) h
  rw [show s = .init from hs]
  exact inv_init

def State.left (s : State) : Nat :=
  match s.pc with
  | .kbd _ true => 3*s.conPipe.length-1
  | .con true => 3*s.conPipe.length-2
  | .kbd _ false => 3*s.conPipe.length+2
  | .con false => 3*s.conPipe.length+1
  | .killed => 0
  | _ => 3*s.conPipe.length

def State.looping (s : State) : Prop :=
  s.pc = .poll ∨ (∃ xkbd xcon, s.pc = .kbd xkbd xcon) ∨ ∃ xcon, s.pc = .con xcon

theorem Inv.wakes (h : Inv cap s) (hpc : s.pc = .poll) (hroom : s.room = true)
    (hcon : s.conPipe≠[]) :
    ∃ xkbd, s.run cap true = some { s.update cap with pc := .kbd xkbd true } := by
  have h1 : s.ready cap 1 = true := by simpa [State.ready] using hroom
  have h3 : s.ready cap 3 = true := by simpa [State.ready] using hcon
  have hx : ((s.update cap).state 1 && (s.update cap).state 3) = true := by
    rw [Bool.and_eq_true, state_update h, state_update h, polled_update, polled_update, h1, h3]
    simp
  have hany : ∃ i, s.polled i ∧ (s.ready cap i = true ∨ s.err i = true) := by
    rcases (h.poll hpc).2 with hp|hp
    · exact ⟨1,hp,.inl h1⟩
    · exact ⟨3,hp,.inl h3⟩
  refine ⟨(s.update cap).state 0 && (s.update cap).state 2,?_⟩
  rw [State.run, hpc]
  dsimp only
  rw [if_pos hany, hx]
  simp

theorem transferKbd_frame (s : State) (xcon : Bool) :
    (s.transferKbd cap xcon).room = s.room ∧ (s.transferKbd cap xcon).conPipe = s.conPipe ∧
    (s.transferKbd cap xcon).printed = s.printed ∧
    (s.transferKbd cap xcon).reader = s.reader := by
  unfold State.transferKbd
  repeat' split
  all_goals exact ⟨rfl,rfl,rfl,rfl⟩

theorem transferKbd_pc (h : Inv cap s) {xcon : Bool} (hpc : s.pc = .kbd true xcon) :
    (s.transferKbd cap xcon).pc = .con xcon ∨ (s.transferKbd cap xcon).pc = .killed := by
  have hb := (h.transferKbd hpc).runs
  unfold State.transferKbd at hb ⊢
  repeat' split
  all_goals first | exact .inl rfl | exact .inr rfl | simp_all

/-- While standard output has room each step of the program brings the next byte nearer. -/
theorem Inv.nearer (h : Inv cap s) (hroom : s.room = true) (hloop : s.looping)
    (hcon : s.conPipe≠[]) : ∃ t, s.run cap true = some t ∧ Inv cap t ∧ t.room = true ∧
      t.printed = s.printed ∧ t.reader = s.reader ∧ (t.pc = .killed ∨ t.looping) ∧
      t.left < s.left := by
  have hlen : 0 < s.conPipe.length := List.length_pos_of_ne_nil hcon
  suffices hex : ∃ t, s.run cap true = some t ∧ t.room = true ∧ t.printed = s.printed ∧
      t.reader = s.reader ∧ (t.pc = .killed ∨ t.looping) ∧ t.left < s.left by
    obtain ⟨t,hs,ht⟩ := hex
    exact ⟨t,hs,h.run hs,ht⟩
  rcases hloop with hpc|⟨xkbd,xcon,hpc⟩|⟨xcon,hpc⟩
  · obtain ⟨xkbd,hs⟩ := h.wakes hpc hroom hcon
    refine ⟨_,hs,hroom,rfl,rfl,.inr (.inr (.inl ⟨xkbd,true,rfl⟩)),?_⟩
    have hl : s.left = 3*s.conPipe.length := by rw [State.left, hpc]
    rw [hl]
    change 3*s.conPipe.length-1 < 3*s.conPipe.length
    omega
  · have hl : ∀ t : State, t.pc = .con xcon → t.conPipe = s.conPipe → t.left < s.left :=
      fun t ht hp => by
        rw [State.left, State.left, ht, hpc, hp]
        cases xcon with
        | true =>
          change 3*s.conPipe.length-2 < 3*s.conPipe.length-1
          omega
        | false =>
          change 3*s.conPipe.length+1 < 3*s.conPipe.length+2
          omega
    cases xkbd with
    | true =>
      obtain ⟨hr,hp,hprt,hrd⟩ := @transferKbd_frame cap s xcon
      refine ⟨s.transferKbd cap xcon,by simp [State.run, hpc],hr.trans hroom,hprt,hrd,?_⟩
      rcases transferKbd_pc h hpc with ht|ht
      · exact ⟨.inr (.inr (.inr ⟨xcon,ht⟩)),hl _ ht hp⟩
      · refine ⟨.inl ht,?_⟩
        rw [State.left, State.left, ht, hpc]
        cases xcon with
        | true =>
          change 0 < 3*s.conPipe.length-1
          omega
        | false =>
          change 0 < 3*s.conPipe.length+2
          omega
    | false =>
      exact ⟨{ s with pc := .con xcon },by simp [State.run, hpc],hroom,rfl,rfl,
        .inr (.inr (.inr ⟨xcon,rfl⟩)),hl _ rfl rfl⟩
  · cases xcon with
    | true =>
      obtain ⟨b,rest,hb⟩ := List.exists_cons_of_ne_nil hcon
      refine ⟨s.transferCon true,by simp [State.run, hpc],?_⟩
      unfold State.transferCon
      rw [hb]
      dsimp only
      rw [if_pos hroom]
      refine ⟨rfl,rfl,rfl,.inr (.inl rfl),?_⟩
      rw [State.left, State.left, hpc, hb]
      change 3*rest.length < 3*(rest.length+1)-2
      omega
    | false =>
      refine ⟨{ s with pc := .poll },by simp [State.run, hpc],hroom,rfl,rfl,.inr (.inl rfl),?_⟩
      rw [State.left, State.left, hpc]
      change 3*s.conPipe.length < 3*s.conPipe.length+1
      omega

def alone (cap : Nat) : System State Unit where
  init _ := True
  next s _ := s.run cap true

theorem run_of_alone {as : List Unit} (h : (alone cap).run s as = some s') :
    (system cap).run s (List.replicate as.length (.run true)) = some s' := by
  induction as generalizing s with
  | nil => exact h
  | cons a as ih =>
    obtain ⟨t,ht,hrun⟩ := Option.bind_eq_some_iff.mp h
    rw [List.length_cons, List.replicate_succ]
    exact Option.bind_eq_some_iff.mpr ⟨t,ht,ih hrun⟩

theorem left_le (s : State) : s.left≤3*s.conPipe.length+2 := by
  unfold State.left
  split <;> omega

/-- While standard output has room the program shows all that the machine has printed, also
after the machine has closed the console, unless a byte typed after the disconnect kills it. -/
theorem printed_shown (h : (system cap).Reachable s) (hroom : s.room = true) (hloop : s.looping) :
    ∃ (n : Nat) (t : State),
      (system cap).run s (List.replicate n (.run true)) = some t ∧ n≤3*s.conPipe.length+2 ∧
      (t.shown = s.printed ∨ t.pc = .killed ∧ s.reader = false) := by
  let P : State → Prop := fun t => Inv cap t ∧ t.room = true ∧ t.printed = s.printed ∧
    t.reader = s.reader ∧ (t.pc = .killed ∨ t.looping)
  let done : State → Prop := fun t => t.conPipe = [] ∨ t.pc = .killed
  have hP : P s := ⟨inv_reachable h,hroom,rfl,rfl,.inr hloop⟩
  obtain ⟨as,t,hrun,hlen,⟨hi,_,hp,hr,_⟩,hd⟩ := System.can_end (alone cap) P done State.left
    (fun t ⟨hi,hr,hp,hd,hl⟩ hn => by
      rw [not_or] at hn
      obtain ⟨u,hu,hiu,hru,hpu,hdu,hlu,hlt⟩ := hi.nearer hr (hl.resolve_left hn.2) hn.1
      exact ⟨(),u,hu,⟨hiu,hru,hpu.trans hp,hdu.trans hd,hlu⟩,hlt⟩) hP
  refine ⟨as.length,t,run_of_alone hrun,hlen.trans (left_le s),?_⟩
  rcases hd with hd|hd
  · left
    rw [← hp, hi.conBytes, hd, List.append_nil]
  · right
    exact ⟨hd,hr.symm.trans (hi.gone hd)⟩

theorem printed_shown_after_close : ∃ s, (system 4).Reachable s ∧ s.writer = false ∧
    s.printed = [104,105] ∧ s.shown = [] ∧ ∃ (n : Nat) (t : State),
      (system 4).run s (List.replicate n (.run true)) = some t ∧ t.shown = [104,105] := by
  obtain ⟨s,hr,⟨hw,hp,hn,hrd,hroom,hpc⟩⟩ := System.reaches (system 4) (s := .init) rfl
    [.connect 3 4,.vmPrint 104,.vmPrint 105,.vmCloseCon]
    (fun s => s.writer = false ∧ s.printed = [104,105] ∧ s.shown = [] ∧ s.reader = true ∧
      s.room = true ∧ s.pc = .poll) (by decide)
  obtain ⟨n,t,hrun,_,ht⟩ := printed_shown hr hroom (.inl hpc)
  rcases ht with ht|⟨_,hk⟩
  · exact ⟨s,hr,hw,hp,hn,n,t,hrun,ht.trans hp⟩
  · simp [hrd] at hk

end
end TinyOS.Terminal.Emulator
