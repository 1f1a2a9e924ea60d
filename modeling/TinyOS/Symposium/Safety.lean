import Mathlib.Tactic.Set
import TinyOS.Symposium.Model

/-! No two neighbours eat together, and nobody stays hungry without an eating neighbour. -/
namespace TinyOS.Symposium
variable {N bites : Nat} {s : State N} {i : Fin N}

theorem LEFT_RIGHT (i : Fin N) : LEFT (RIGHT i) = i := by
  have hi := i.isLt
  apply Fin.ext
  simp only [LEFT, RIGHT]
  rw [Nat.mod_add_mod, show i.val+N-1+1 = i.val+N by omega, Nat.add_mod_right, Nat.mod_eq_of_lt hi]

theorem RIGHT_LEFT (i : Fin N) : RIGHT (LEFT i) = i := by
  have hi := i.isLt
  apply Fin.ext
  simp only [LEFT, RIGHT]
  rw [Nat.add_sub_assoc (by omega), Nat.mod_add_mod, show i.val+1+(N-1) = i.val+N by omega,
    Nat.add_mod_right, Nat.mod_eq_of_lt hi]

theorem LEFT_ne (hN : 2≤N) (i : Fin N) : LEFT i≠i := by
  have hi := i.isLt
  intro he
  have hv : (i.val+1)%N = i.val := congrArg Fin.val he
  by_cases h : i.val+1 = N
  · rw [h, Nat.mod_self] at hv
    omega
  · rw [Nat.mod_eq_of_lt (by omega)] at hv
    omega

def Pc.inside : Pc → Bool
  | .start | .think _ | .asleep _ | .relock _ | .eat _ | .finished => false
  | _ => true

def Pc.Ok (bites : Nat) (x : PHIL) (n : Nat) : Pc → Prop
  | .start | .arrive => x = .NOTHERE ∧ n = 0
  | .arrived => x = .THINKING ∧ n = 0
  | .think j => x = .THINKING ∧ n = j ∧ j≤bites
  | .hungry j => x = .THINKING ∧ n = j ∧ j<bites
  | .tryToEat .self j => x = .HUNGRY ∧ n = j ∧ j<bites
  | .signal .self j | .check j | .served j | .eat j | .full j => x = .EATING ∧ n = j+1 ∧ j<bites
  | .test j | .asleep j | .relock j => (x = .HUNGRY ∧ n = j ∨ x = .EATING ∧ n = j+1) ∧ j<bites
  | .tryToEat _ j | .signal _ j | .done j => x = .THINKING ∧ n = j+1 ∧ j<bites
  | .leave => x = .THINKING ∧ n = bites
  | .left | .finished => x = .NOTHERE ∧ n = bites

/-- At p, philosopher k is still to call trytoeat for x. -/
def Pc.Owes (k x : Fin N) : Pc → Prop
  | .tryToEat .self _ => x = k
  | .tryToEat .left _ => x = LEFT k ∨ x = RIGHT k
  | .signal .left _ | .tryToEat .right _ => x = RIGHT k
  | _ => False

theorem Pc.Owes.inside {p : Pc} {k x : Fin N} (h : p.Owes k x) : p.inside = true := by
  cases p with
  | tryToEat b j => rfl
  | signal b j => rfl
  | _ => exact h.elim

def State.NeighbourEats (s : State N) (i : Fin N) : Prop :=
  s.state (LEFT i) = .EATING ∨ s.state (RIGHT i) = .EATING

structure Inv (bites : Nat) (s : State N) : Prop where
  mutex : ∀ i, s.mx = some i ↔ (s.pc i).inside = true
  ok : ∀ i, (s.pc i).Ok bites (s.state i) (s.eaten i)
  apart : 2≤N → ∀ i, s.state i = .EATING → s.state (LEFT i)≠.EATING
  fed : ∀ i, s.state i = .HUNGRY → s.NeighbourEats i ∨ ∃ k, (s.pc k).Owes k i
  woken : ∀ i j, s.pc i = .asleep j → s.state i = .EATING → ∃ k b j', s.pc k = .signal b j' ∧
    b.of k = i

theorem Inv.owes_unique (h : Inv bites s) {k x : Fin N} (ho : (s.pc k).Owes k x)
    (hi : (s.pc i).inside = true) : k = i := by
  have := (h.mutex k).mpr ho.inside
  rw [(h.mutex i).mpr hi] at this
  exact (Option.some.inj this).symm

inductive Passes (s : State N) (i : Fin N) (p : Pc) : Option (Fin N) → Prop where
  | lock (hfree : s.mx = none) (hp : p.inside = true) : Passes s i p (some i)
  | unlock (hi : (s.pc i).inside = true) (hp : p.inside = false) : Passes s i p none
  | same (hp : p.inside = (s.pc i).inside) : Passes s i p s.mx

theorem Inv.mutex_step (h : Inv bites s) {p : Pc} {m : Option (Fin N)} (hm : Passes s i p m)
    (x : Fin N) :
    m = some x ↔ (Function.update s.pc i p x).inside = true := by
  by_cases hx : x = i
  · subst hx
    rw [Function.update_self]
    cases hm with
    | lock hfree hp => simp [hp]
    | unlock hi hp => simp [hp]
    | same hp => rw [hp, h.mutex]
  · rw [Function.update_of_ne hx, ← h.mutex x]
    cases hm with
    | lock hfree hp => simp [hfree, Ne.symm hx]
    | unlock hi hp => simp [(h.mutex i).mpr hi, Ne.symm hx]
    | same hp => exact Iff.rfl

theorem Inv.move (h : Inv bites s) {p : Pc} {m : Option (Fin N)} (hm : Passes s i p m)
    (hok : p.Ok bites (s.state i) (s.eaten i))
    (hsleep : ∀ j, p = .asleep j → s.state i≠.EATING)
    (hsignal : ∀ b j, s.pc i = .signal b j → ∀ j', s.pc (b.of i)≠.asleep j')
    (howes : ∀ x, (s.pc i).Owes i x → s.state x = .HUNGRY → s.NeighbourEats x ∨ p.Owes i x) :
    Inv bites { s with mx := m, pc := Function.update s.pc i p } := by
  refine ⟨h.mutex_step hm,fun x => ?_,h.apart,fun x hx => ?_,fun x j hx he => ?_⟩
  · by_cases hxi : x = i
    · subst hxi
      simpa using hok
    · simpa [hxi] using h.ok x
  · cases h.fed x hx with
    | inl hn => exact Or.inl hn
    | inr ho =>
      obtain ⟨k,hk⟩ := ho
      by_cases hki : k = i
      · subst hki
        cases howes x hk hx with
        | inl hn => exact Or.inl hn
        | inr hp => exact Or.inr ⟨k,by simpa using hp⟩
      · exact Or.inr ⟨k,by simpa [hki] using hk⟩
  · by_cases hxi : x = i
    · subst hxi
      exact absurd he (hsleep j (by simpa using hx))
    · have hx' : s.pc x = .asleep j := by simpa [hxi] using hx
      obtain ⟨k,b,j',hk,hb⟩ := h.woken x j hx' he
      have hki : k≠i := by
        rintro rfl
        exact hsignal b j' hk j (hb ▸ hx')
      exact ⟨k,b,j',by simpa [hki] using hk,hb⟩

theorem Inv.setOwn (h : Inv bites s) {p : Pc} {x : PHIL} (hi : (s.pc i).inside = true)
    (hp : p.inside = true) (hx : x≠.EATING) (hok : p.Ok bites x (s.eaten i))
    (hsignal : ∀ b j, s.pc i≠.signal b j) (hnone : ∀ k, ¬(s.pc i).Owes i k)
    (hself : x = .HUNGRY → p.Owes i i)
    (hsides : s.state i = .EATING → p.Owes i (LEFT i) ∧ p.Owes i (RIGHT i)) :
    Inv bites ((s.set i x).goto i p) := by
  have hne : ∀ k, k≠i → ((s.set i x).goto i p).state k = s.state k := fun k hk =>
    Function.update_of_ne hk _ _
  have hown : ((s.set i x).goto i p).state i = x := Function.update_self ..
  have heats : ∀ k, ((s.set i x).goto i p).state k = .EATING → s.state k = .EATING := by
    intro k hk
    by_cases hki : k = i
    · subst hki
      exact absurd (hown.symm.trans hk) hx
    · rwa [hne k hki] at hk
  refine ⟨h.mutex_step (.same (hp.trans hi.symm)),fun k => ?_,fun hN k hk hl => ?_,fun k hk => ?_,
    fun k j hk he => ?_⟩
  · by_cases hki : k = i
    · subst hki
      simpa [State.set, State.goto] using hok
    · simpa [State.set, State.goto, hki] using h.ok k
  · exact h.apart hN k (heats k hk) (heats _ hl)
  · by_cases hki : k = i
    · subst hki
      exact Or.inr ⟨k,by simpa [State.set, State.goto] using hself (hown.symm.trans hk)⟩
    · rw [hne k hki] at hk
      cases h.fed k hk with
      | inl hn =>
        -- If i was the neighbour that ate, it now owes k a try.
        by_cases hl : LEFT k = i ∨ RIGHT k = i
        · by_cases he : s.state i = .EATING
          · obtain ⟨hL,hR⟩ := hsides he
            cases hl with
            | inl hl =>
              have : k = RIGHT i := by rw [← hl, RIGHT_LEFT]
              exact Or.inr ⟨i,by simpa [State.set, State.goto, this] using hR⟩
            | inr hl =>
              have : k = LEFT i := by rw [← hl, LEFT_RIGHT]
              exact Or.inr ⟨i,by simpa [State.set, State.goto, this] using hL⟩
          · have hkeep : ∀ y, s.state y = .EATING → ((s.set i x).goto i p).state y = .EATING := by
              intro y hy
              rw [hne y (by rintro rfl; exact he hy), hy]
            exact Or.inl (hn.imp (hkeep _) (hkeep _))
        · rw [not_or] at hl
          rw [State.NeighbourEats, ← hne _ hl.1, ← hne _ hl.2] at hn
          exact Or.inl hn
      | inr ho =>
        obtain ⟨m,hm⟩ := ho
        have hmi := h.owes_unique hm hi
        subst hmi
        exact absurd hm (hnone k)
  · have hki : k≠i := by
      rintro rfl
      simp only [State.goto, State.set, Function.update_self] at hk
      simp [hk, Pc.inside] at hp
    have hk' : s.pc k = .asleep j := by simpa [State.goto, State.set, hki] using hk
    obtain ⟨m,b,j',hm,hb⟩ := h.woken k j hk' (heats k he)
    have hmi : m≠i := by
      rintro rfl
      exact hsignal b j' hm
    exact ⟨m,b,j',by simpa [State.goto, State.set, hmi] using hm,hb⟩

theorem condSignal_inv (h : Inv bites s) (i : Fin N) : Inv bites (s.condSignal i) := by
  unfold State.condSignal
  split
  · rename_i j hpc
    have hok := h.ok i
    rw [hpc] at hok
    exact h.move (.same (by rw [hpc]; rfl)) hok (by simp) (by simp [hpc]) (by simp [hpc, Pc.Owes])
  · exact h

theorem condSignal_pc (s : State N) (i : Fin N) (j : Nat) : (s.condSignal i).pc i≠.asleep j := by
  unfold State.condSignal
  split
  · simp [State.goto]
  · rename_i hpc
    exact hpc j

theorem condSignal_of_ne (s : State N) {i k : Fin N} (hk : k≠i) :
    (s.condSignal i).pc k = s.pc k := by
  unfold State.condSignal
  split
  · simp [State.goto, hk]
  · rfl

theorem Target.next_inside (b : Target) (j : Nat) : (b.next j).inside = true := by
  cases b <;> rfl

theorem not_canEat (hn : s.canEat i = false) (hi : s.state i = .HUNGRY) : s.NeighbourEats i := by
  by_contra hc
  rw [State.NeighbourEats, not_or] at hc
  simp [State.canEat, hi, hc.1, hc.2] at hn

theorem tryToEat_failed (h : Inv bites s) {b : Target} {j : Nat} (hpc : s.pc i = .tryToEat b j)
    (hn : s.canEat (b.of i) = false) : Inv bites (s.goto i (b.next j)) := by
  have hok := h.ok i
  rw [hpc] at hok
  refine h.move (.same ?_) ?_ ?_ (by simp [hpc]) fun x ho hx => ?_
  · rw [hpc, Target.next_inside]
    rfl
  · cases b with
    | self => exact ⟨Or.inl ⟨hok.1,hok.2.1⟩,hok.2.2⟩
    | left => exact hok
    | right => exact hok
  · cases b <;> simp [Target.next]
  · rw [hpc] at ho
    cases b with
    | self =>
      obtain rfl : x = i := ho
      exact Or.inl (not_canEat hn hx)
    | left =>
      cases ho with
      | inl ho =>
        subst ho
        exact Or.inl (not_canEat hn hx)
      | inr ho => exact Or.inr ho
    | right =>
      obtain rfl : x = RIGHT i := ho
      exact Or.inl (not_canEat hn hx)

theorem Pc.Ok.serve {p : Pc} {n : Nat} (h : p.Ok bites .HUNGRY n) (hp : p.inside = false) :
    p.Ok bites .EATING (n+1) := by
  cases p with
  | asleep j => simpa [Pc.Ok] using h
  | relock j => simpa [Pc.Ok] using h
  | _ => simp [Pc.Ok, Pc.inside] at h hp

theorem tryToEat_served (h : Inv bites s) {b : Target} {j : Nat} (hpc : s.pc i = .tryToEat b j)
    (hc : s.canEat (b.of i) = true) : Inv bites ((s.serve (b.of i)).goto i (.signal b j)) := by
  obtain ⟨t,ht⟩ : ∃ t, t = b.of i := ⟨_,rfl⟩
  rw [← ht] at hc ⊢
  simp only [State.canEat, Bool.and_eq_true, decide_eq_true_eq] at hc
  obtain ⟨⟨hh,hl⟩,hr⟩ := hc
  have hin : (s.pc i).inside = true := by rw [hpc]; rfl
  set s' := (s.serve t).goto i (.signal b j) with hs'
  have hst : ∀ k, k≠t → s'.state k = s.state k := fun k hk => Function.update_of_ne hk _ _
  have htE : s'.state t = .EATING := Function.update_self ..
  have hpct : ∀ k, k≠i → s'.pc k = s.pc k := fun k hk => Function.update_of_ne hk _ _
  have hpci : s'.pc i = .signal b j := Function.update_self ..
  have hkeep : ∀ y, s.state y = .EATING → s'.state y = .EATING := by
    intro y hy
    by_cases hyt : y = t
    · rw [hyt, htE]
    · rw [hst y hyt, hy]
  refine ⟨h.mutex_step (.same ?_),fun k => ?_,fun hN k hk hkl => ?_,fun k hk => ?_,
    fun k j' hk he => ?_⟩
  · rw [hpc]
    rfl
  · have hoki := h.ok i
    rw [hpc] at hoki
    by_cases hki : k = i
    · subst hki
      rw [hpci]
      by_cases hkt : k = t
      · subst hkt
        cases b with
        | self => exact ⟨htE,by simp [hs', State.serve, State.goto, hoki.2.1],hoki.2.2⟩
        | left => simp [hoki.1] at hh
        | right => simp [hoki.1] at hh
      · have he : s'.eaten k = s.eaten k := Function.update_of_ne hkt _ _
        rw [hst k hkt, he]
        cases b with
        | self => exact absurd ht.symm hkt
        | left => exact hoki
        | right => exact hoki
    · rw [hpct k hki]
      have hokk := h.ok k
      by_cases hkt : k = t
      · subst hkt
        have hout : (s.pc k).inside = false := by
          by_contra hin'
          have := (h.mutex k).mpr (by simpa using hin')
          rw [(h.mutex i).mpr hin] at this
          exact hki (Option.some.inj this).symm
        have he : s'.eaten k = s.eaten k+1 := Function.update_self ..
        rw [hh] at hokk
        rw [htE, he]
        exact hokk.serve hout
      · have he : s'.eaten k = s.eaten k := Function.update_of_ne hkt _ _
        rw [hst k hkt, he]
        exact hokk
  · by_cases hkt : k = t
    · subst hkt
      rw [hst _ (LEFT_ne hN k)] at hkl
      exact hl hkl
    · rw [hst k hkt] at hk
      by_cases hlt : LEFT k = t
      · have : k = RIGHT t := by rw [← hlt, RIGHT_LEFT]
        exact hr (this ▸ hk)
      · rw [hst _ hlt] at hkl
        exact h.apart hN k hk hkl
  · have hkt : k≠t := by
      rintro rfl
      rw [htE] at hk
      cases hk
    rw [hst k hkt] at hk
    cases h.fed k hk with
    | inl hn => exact Or.inl (hn.imp (hkeep _) (hkeep _))
    | inr ho =>
      obtain ⟨m,hm⟩ := ho
      obtain rfl := h.owes_unique hm hin
      rw [hpc] at hm
      refine Or.inr ⟨m,?_⟩
      rw [hpci]
      cases b with
      | self => exact absurd (hm.trans ht.symm) hkt
      | left =>
        cases hm with
        | inl hm => exact absurd (hm.trans ht.symm) hkt
        | inr hm => exact hm
      | right => exact absurd (hm.trans ht.symm) hkt
  · have hki : k≠i := by
      rintro rfl
      rw [hpci] at hk
      cases hk
    by_cases hkt : k = t
    · exact ⟨i,b,j,hpci,ht.symm.trans hkt.symm⟩
    · rw [hst k hkt] at he
      rw [hpct k hki] at hk
      obtain ⟨m,b',j'',hm,-⟩ := h.woken k j' hk he
      have hmi : m = i := by
        have := (h.mutex m).mpr (by rw [hm]; rfl)
        rw [(h.mutex i).mpr hin] at this
        exact (Option.some.inj this).symm
      rw [hmi, hpc] at hm
      cases hm

theorem signal_inv (h : Inv bites s) {b : Target} {j : Nat} (hpc : s.pc i = .signal b j) :
    Inv bites ((s.condSignal (b.of i)).goto i (b.next j)) := by
  have hpci : (s.condSignal (b.of i)).pc i = .signal b j := by
    by_cases hb : i = b.of i
    · rw [← hb, State.condSignal, hpc]
      exact hpc
    · rw [condSignal_of_ne s hb, hpc]
  have h' := condSignal_inv h (b.of i)
  have hok := h'.ok i
  rw [hpci] at hok
  refine h'.move (.same ?_) ?_ ?_ (fun b' j' hb => ?_) fun x ho hx => Or.inr ?_
  · rw [hpci, Target.next_inside]
    rfl
  · cases b with
    | self => exact ⟨Or.inr ⟨hok.1,hok.2.1⟩,hok.2.2⟩
    | left => exact hok
    | right => exact hok
  · cases b <;> simp [Target.next]
  · rw [hpci] at hb
    cases hb
    exact condSignal_pc s (b.of i)
  · rw [hpci] at ho
    cases b with
    | left => exact ho
    | self => exact ho.elim
    | right => exact ho.elim

theorem run_inv (h : Inv bites s) (hrun : (s.pc i).runs = true)
    (hfree : (s.pc i).locks = true → s.mx = none) :
    ∃ s', run bites s i (s.pc i) = some s' ∧ Inv bites s' := by
  have hok := h.ok i
  cases hpc : s.pc i with
  | asleep j => simp [hpc, Pc.runs] at hrun
  | finished => simp [hpc, Pc.runs] at hrun
  | start =>
    rw [hpc] at hok hfree
    exact ⟨_,rfl,h.move (.lock (hfree rfl) rfl) hok (by simp) (by simp [hpc])
      (by simp [hpc, Pc.Owes])⟩
  | arrive =>
    rw [hpc] at hok
    refine ⟨_,rfl,h.setOwn (by rw [hpc]; rfl) rfl (by simp) ⟨rfl,hok.2⟩ (by simp [hpc])
      (by simp [hpc, Pc.Owes]) (by simp) ?_⟩
    simp [hok.1]
  | arrived =>
    rw [hpc] at hok
    exact ⟨_,rfl,h.move (.unlock (by rw [hpc]; rfl) rfl) ⟨hok.1,hok.2,Nat.zero_le _⟩ (by simp)
      (by simp [hpc]) (by simp [hpc, Pc.Owes])⟩
  | think j =>
    rw [hpc] at hok hfree
    refine ⟨_,rfl,?_⟩
    by_cases hj : j<bites
    · rw [if_pos hj]
      exact h.move (.lock (hfree rfl) rfl) ⟨hok.1,hok.2.1,hj⟩ (by simp) (by simp [hpc])
        (by simp [hpc, Pc.Owes])
    · rw [if_neg hj]
      refine h.move (.lock (hfree rfl) rfl) ⟨hok.1,?_⟩ (by simp) (by simp [hpc])
        (by simp [hpc, Pc.Owes])
      have := hok.2
      omega
  | hungry j =>
    rw [hpc] at hok
    refine ⟨_,rfl,h.setOwn (by rw [hpc]; rfl) rfl (by simp) ⟨rfl,hok.2⟩ (by simp [hpc])
      (by simp [hpc, Pc.Owes]) (fun _ => rfl) ?_⟩
    simp [hok.1]
  | tryToEat b j =>
    rw [run]
    by_cases hc : s.canEat (b.of i) = true
    · exact ⟨_,if_pos hc,tryToEat_served h hpc hc⟩
    · exact ⟨_,if_neg hc,tryToEat_failed h hpc (by simpa using hc)⟩
  | signal b j => exact ⟨_,rfl,signal_inv h hpc⟩
  | test j =>
    rw [hpc] at hok
    rw [run]
    by_cases hh : s.state i = .HUNGRY
    · refine ⟨_,if_pos hh,h.move (.unlock (by rw [hpc]; rfl) rfl) hok ?_ (by simp [hpc])
        (by simp [hpc, Pc.Owes])⟩
      simp [hh]
    · refine ⟨_,if_neg hh,h.move (.same (by rw [hpc]; rfl)) ?_ (by simp) (by simp [hpc])
        (by simp [hpc, Pc.Owes])⟩
      cases hok.1 with
      | inl he => exact absurd he.1 hh
      | inr he => exact ⟨he.1,he.2,hok.2⟩
  | relock j =>
    rw [hpc] at hok hfree
    exact ⟨_,rfl,h.move (.lock (hfree rfl) rfl) hok (by simp) (by simp [hpc])
      (by simp [hpc, Pc.Owes])⟩
  | check j =>
    rw [hpc] at hok
    rw [run]
    exact ⟨_,if_pos hok.1,h.move (.same (by rw [hpc]; rfl)) hok (by simp) (by simp [hpc])
      (by simp [hpc, Pc.Owes])⟩
  | served j =>
    rw [hpc] at hok
    exact ⟨_,rfl,h.move (.unlock (by rw [hpc]; rfl) rfl) hok (by simp) (by simp [hpc])
      (by simp [hpc, Pc.Owes])⟩
  | eat j =>
    rw [hpc] at hok hfree
    exact ⟨_,rfl,h.move (.lock (hfree rfl) rfl) hok (by simp) (by simp [hpc])
      (by simp [hpc, Pc.Owes])⟩
  | full j =>
    rw [hpc] at hok
    exact ⟨_,rfl,h.setOwn (by rw [hpc]; rfl) rfl (by simp) ⟨rfl,hok.2⟩ (by simp [hpc])
      (by simp [hpc, Pc.Owes]) (by simp) fun _ => ⟨Or.inl rfl,Or.inr rfl⟩⟩
  | done j =>
    rw [hpc] at hok
    exact ⟨_,rfl,h.move (.unlock (by rw [hpc]; rfl) rfl) ⟨hok.1,hok.2.1,hok.2.2⟩ (by simp)
      (by simp [hpc]) (by simp [hpc, Pc.Owes])⟩
  | leave =>
    rw [hpc] at hok
    refine ⟨_,rfl,h.setOwn (by rw [hpc]; rfl) rfl (by simp) ⟨rfl,hok.2⟩ (by simp [hpc])
      (by simp [hpc, Pc.Owes]) (by simp) ?_⟩
    simp [hok.1]
  | left =>
    rw [hpc] at hok
    exact ⟨_,rfl,h.move (.unlock (by rw [hpc]; rfl) rfl) hok (by simp) (by simp [hpc])
      (by simp [hpc, Pc.Owes])⟩

theorem init_inv : Inv bites (init : State N) :=
  ⟨by simp [init, Pc.inside],fun _ => ⟨rfl,rfl⟩,by simp [init],by simp [init],by simp [init]⟩

theorem exec_inv (h : Inv bites s) {a : Label N} (ha : Enabled s a) :
    ∃ s', exec bites s a = some s' ∧ Inv bites s' := by
  cases a with
  | run i => exact run_inv h ha.1 ha.2
  | spurious i => exact ⟨_,rfl,condSignal_inv h i⟩

theorem reachable_inv (hr : (system N bites).Reachable s) : Inv bites s := by
  refine (system N bites).invariant (Inv bites) ?_ ?_ hr
  · rintro s rfl
    exact init_inv
  · intro s a s' h hs
    simp only [system] at hs
    split at hs
    · obtain ⟨s1,hs1,h1⟩ := exec_inv h ‹_›
      rw [hs1] at hs
      cases hs
      exact h1
    · cases hs

/-- No two neighbours are EATING, and the assertion behind the waiting loop holds. -/
theorem neighbours_apart (hN : 2≤N) (hr : (system N bites).Reachable s) :
    (∀ i, ¬(s.state i = .EATING ∧ s.state (LEFT i) = .EATING)) ∧
    (∀ i j, s.pc i = .check j → s.state i = .EATING) ∧
    ∀ a, Enabled s a → (exec bites s a).isSome = true := by
  have h := reachable_inv hr
  refine ⟨fun i hi => h.apart hN i hi.1 hi.2,fun i j hpc => ?_,fun a ha => ?_⟩
  · have hok := h.ok i
    rw [hpc] at hok
    exact hok.1
  · obtain ⟨s',hs',-⟩ := exec_inv h ha
    simp [hs']

theorem Inv.hungry_fed (h : Inv bites s) (hfree : s.mx = none) (hi : s.state i = .HUNGRY) :
    s.NeighbourEats i := by
  cases h.fed i hi with
  | inl hn => exact hn
  | inr ho =>
    obtain ⟨k,hk⟩ := ho
    have := (h.mutex k).mpr hk.inside
    rw [hfree] at this
    cases this

theorem Inv.asleep_hungry (h : Inv bites s) (hfree : s.mx = none) {j : Nat}
    (hpc : s.pc i = .asleep j) :
    s.state i≠.EATING := by
  intro he
  obtain ⟨k,b,j',hk,-⟩ := h.woken i j hpc he
  have := (h.mutex k).mpr (by rw [hk]; rfl)
  rw [hfree] at this
  cases this

theorem Inv.eating_runs (h : Inv bites s) (hfree : s.mx = none) (hi : s.state i = .EATING) :
    Enabled s (.run i) := by
  have hok := h.ok i
  refine ⟨?_,fun _ => hfree⟩
  cases hpc : s.pc i with
  | asleep j => exact absurd hi (h.asleep_hungry hfree hpc)
  | finished =>
    rw [hpc, hi] at hok
    cases hok.1
  | _ => rfl

/-- As long as a philosopher has not finished, some philosopher can run. -/
theorem Inv.not_stuck (h : Inv bites s) (hi : s.pc i≠.finished) : ∃ k, Enabled s (.run k) := by
  cases hmx : s.mx with
  | some k =>
    have hin := (h.mutex k).mp hmx
    refine ⟨k,?_,fun hl => ?_⟩
    · cases hpc : s.pc k <;> simp [hpc, Pc.inside, Pc.runs] at hin ⊢
    · cases hpc : s.pc k <;> simp [hpc, Pc.inside, Pc.locks] at hin hl
  | none =>
    cases hpc : s.pc i with
    | finished => exact absurd hpc hi
    | asleep j =>
      have hok := h.ok i
      rw [hpc] at hok
      have hh : s.state i = .HUNGRY := by
        cases hok.1 with
        | inl hh => exact hh.1
        | inr he => exact absurd he.1 (h.asleep_hungry hmx hpc)
      cases h.hungry_fed hmx hh with
      | inl he => exact ⟨_,h.eating_runs hmx he⟩
      | inr he => exact ⟨_,h.eating_runs hmx he⟩
    | _ => exact ⟨i,by rw [hpc]; rfl,fun _ => hmx⟩

/-- While mx is free, everyone HUNGRY has an EATING neighbour and no sleeper is EATING;
somebody can run until all have finished; and who has left ate all the bites. -/
theorem nobody_blocked (hr : (system N bites).Reachable s) :
    (s.mx = none → ∀ i, s.state i = .HUNGRY → s.NeighbourEats i) ∧
    (s.mx = none → ∀ i j, s.pc i = .asleep j → s.state i≠.EATING) ∧
    ((∃ i, s.pc i≠.finished) → ∃ k, Enabled s (.run k)) ∧
    ∀ i, (s.pc i = .left ∨ s.pc i = .finished) → s.state i = .NOTHERE ∧ s.eaten i = bites := by
  have h := reachable_inv hr
  refine ⟨fun hfree i hi => h.hungry_fed hfree hi,fun hfree i j hpc => h.asleep_hungry hfree hpc,
    fun ⟨i,hi⟩ => h.not_stuck hi,fun i hpc => ?_⟩
  have hok := h.ok i
  cases hpc with
  | inl hpc =>
    rw [hpc] at hok
    exact hok
  | inr hpc =>
    rw [hpc] at hok
    exact hok

def supper : List (Label 2) :=
  [.run 0, .run 0, .run 0, .run 1, .run 1, .run 1, .run 0, .run 0, .run 0, .run 0, .run 0, .run 0, .run 0,
    .run 1, .run 1, .run 1, .run 1]

theorem supper_apart : ∃ s, (system 2 3).Reachable s ∧ s.state 0 = .EATING ∧ s.state 1 = .HUNGRY ∧
    ∀ i, ¬(s.state i = .EATING ∧ s.state (LEFT i) = .EATING) := by
  obtain ⟨s,hs,h0,h1⟩ := (system 2 3).reaches rfl supper
    (fun s => s.state 0 = .EATING ∧ s.state 1 = .HUNGRY) (by decide +kernel)
  exact ⟨s,hs,h0,h1,(neighbours_apart (by decide) hs).1⟩

theorem supper_not_blocked : ∃ s, (system 2 3).Reachable s ∧ s.pc 1 = .asleep 0 ∧ s.NeighbourEats 1 ∧
    ∃ k, Enabled s (.run k) := by
  obtain ⟨s,hs,h1,hfree,hh⟩ := (system 2 3).reaches rfl supper
    (fun s => s.pc 1 = .asleep 0 ∧ s.mx = none ∧ s.state 1 = .HUNGRY) (by decide +kernel)
  have h := nobody_blocked hs
  exact ⟨s,hs,h1,h.1 hfree 1 hh,h.2.2.1 ⟨1,by simp [h1]⟩⟩

end TinyOS.Symposium
