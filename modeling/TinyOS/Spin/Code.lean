import TinyOS.Spin.Model

/-! What the code of a context that is still to run says of the mutexes it holds and of
preemption. -/
namespace TinyOS.Spin
variable {κ τ π γ μ : Type*}

/-- The mutexes that are taken in the non-preemptive domain, maybe not only there. -/
def Mutex.spins : Mutex π γ μ → Bool
  | .waitsetLock (.other _) | .user _ => false
  | _ => true

/-- The mutexes that are taken in the non-preemptive domain only. -/
def Mutex.nonPreemptive : Mutex π γ μ → Bool
  | .schedSpinlock | .waitsetLock (.rxReady _) => true
  | _ => false

def Mutex.Suits (x : Mutex π γ μ) (d : Nat) : Prop :=
  (x.nonPreemptive = true → 0 < d) ∧ (x.spins = false → d = 0)

theorem Mutex.ne_user {l : Mutex π γ μ} (hl : l.spins = true) (m : μ) : l≠.user m := by
  rintro rfl
  cases hl

def depth : List (Instr κ τ π γ μ) → Nat
  | [] => 0
  | .preemptOff::k => depth k-1
  | .restore::k | .preemptOn::k => depth k+1
  | _::k => depth k

variable [DecidableEq π] [DecidableEq γ] [DecidableEq μ]

def needs (l : Mutex π γ μ) : List (Instr κ τ π γ μ) → Bool
  | [] => false
  | .lock x::k => if l = x then false else needs l k
  | .unlock x::k => if l = x then true else needs l k
  | _::k => needs l k

def Bare (k : List (Instr κ τ π γ μ)) : Prop := ∀ l : Mutex π γ μ, l.spins = true → needs l k = false

def Only (m : Mutex π γ μ) (k : List (Instr κ τ π γ μ)) : Prop :=
  ∀ l : Mutex π γ μ, l.spins = true → needs l k = decide (l = m)

def Fits (k : List (Instr κ τ π γ μ)) : Instr κ τ π γ μ → Prop
  | .lock x => (x.spins = true → needs x k = true) ∧ (x.spins = false → depth k = 0)
  | .unlock x => x.spins = true → needs x k = false
  | .preemptOff => 0 < depth k
  | .preemptOn => depth k = 0
  | .switch => Bare k ∧ 0 < depth k
  | .testSem => Only .kernelMutex k
  | .signal _ _ | .again _ _ => needs .schedSpinlock k = false
  | .takeOver => needs .activeThreadsSpinlock k = false
  | .poll _ => Bare k ∧ 0 < depth k
  | _ => True

def Guarded (k : List (Instr κ τ π γ μ)) : Prop :=
  ∀ l : Mutex π γ μ, l.nonPreemptive = true → needs l k = true → 0 < depth k

def Wf : List (Instr κ τ π γ μ) → Prop
  | [] => True
  | i::k => Wf k ∧ Fits k i ∧ Guarded (i::k)

theorem Wf.guarded {k : List (Instr κ τ π γ μ)} (h : Wf k) : Guarded k := by
  cases k with
  | nil => intro l _ hl; cases hl
  | cons i k => exact h.2.2

variable {k : List (Instr κ τ π γ μ)} {l : Mutex π γ μ}

theorem needs_gain : needs l (gain++k) = if l = .schedSpinlock then false else needs l k := by
  by_cases hl : l = .schedSpinlock <;> simp [gain, needs, hl]

theorem needs_yield : needs l (yield++k) = if l = .schedSpinlock then false else needs l k := by
  by_cases hl : l = .schedSpinlock <;> simp [yield, gain, needs, hl]

theorem needs_wakeup (x : Ctx κ τ) :
    needs l (wakeup x++k) = if l = .schedSpinlock then false else needs l k := by
  by_cases hl : l = .schedSpinlock <;> simp [wakeup, needs, hl]

theorem needs_sleepReleasing (e t : Bool) (mx : Mutex π γ μ) : needs l (sleepReleasing e mx t++k) =
    if l = .schedSpinlock then false else if l = mx then true else needs l k := by
  by_cases hl : l = .schedSpinlock <;> by_cases hm : l = mx <;>
    simp [sleepReleasing, yield, gain, needs, hl, hm]

theorem Guarded.mono {k' : List (Instr κ τ π γ μ)} (h : Guarded k)
    (hn : ∀ l : Mutex π γ μ, needs l k' = true → needs l k = true) (hd : depth k ≤ depth k') :
    Guarded k' :=
  fun l hl hk => Nat.lt_of_lt_of_le (h l hl (hn l hk)) hd

theorem Guarded.of_depth (h : 0 < depth k) : Guarded k := fun _ _ _ => h

theorem wf_lock {x : Mutex π γ μ} (h : Wf k) (hx : x.spins = true → needs x k = true)
    (hd : x.spins = false → depth k = 0) : Wf (.lock x::k) := by
  refine ⟨h,⟨hx,hd⟩,h.guarded.mono (fun l hl => ?_) (Nat.le_refl _)⟩
  simp only [needs] at hl
  split at hl
  · cases hl
  · exact hl

theorem wf_unlock {x : Mutex π γ μ} (h : Wf k) (hx : x.spins = true → needs x k = false)
    (hd : x.nonPreemptive = true → 0 < depth k) : Wf (.unlock x::k) := by
  refine ⟨h,hx,fun l hl hk => ?_⟩
  simp only [needs] at hk
  split at hk
  · subst l
    exact hd hl
  · exact h.guarded l hl hk

theorem wf_restore (h : Wf k) : Wf (.restore::k) :=
  ⟨h,trivial,.of_depth (Nat.succ_pos _)⟩

theorem Guarded.skip {k' : List (Instr κ τ π γ μ)} (h : Guarded k)
    (hn : ∀ l : Mutex π γ μ, needs l k' = if l = .schedSpinlock then false else needs l k)
    (hd : depth k' = depth k) : Guarded k' := by
  refine h.mono (fun l hl => ?_) (Nat.le_of_eq hd.symm)
  rw [hn] at hl
  split at hl
  · cases hl
  · exact hl

theorem wf_wakeup (x : Ctx κ τ) (h : Wf k) (hs : needs .schedSpinlock k = false) :
    Wf (wakeup x++k) := by
  have hu : Wf (.unlock .schedSpinlock::.restore::k) :=
    wf_unlock (wf_restore h) (fun _ => hs) (fun _ => Nat.succ_pos _)
  have hr : Wf (.makeReady x::.unlock .schedSpinlock::.restore::k) := ⟨hu,trivial,hu.guarded⟩
  exact ⟨wf_lock hr (fun _ => by simp [needs]) nofun,Nat.succ_pos _,
    h.guarded.skip (fun _ => needs_wakeup x) rfl⟩

theorem wf_gain (h : Wf k) (hs : needs .schedSpinlock k = false)
    (ha : needs .activeThreadsSpinlock k = false) : Wf (gain++k) := by
  have hu : Wf (.unlock .schedSpinlock::.restore::k) :=
    wf_unlock (wf_restore h) (fun _ => hs) (fun _ => Nat.succ_pos _)
  have ht : Wf (.takeOver::.unlock .schedSpinlock::.restore::k) :=
    ⟨hu,by simpa [Fits, needs] using ha,hu.guarded⟩
  exact wf_lock ht (fun _ => by simp [needs]) nofun

theorem Bare.gain (h : Bare k) : Bare (gain++k) := by
  intro l hl
  rw [needs_gain]
  split
  · rfl
  · exact h l hl

theorem Bare.yield (h : Bare k) : Bare (yield++k) := by
  intro l hl
  rw [needs_yield]
  split
  · rfl
  · exact h l hl

theorem wf_yield (h : Wf k) (hb : Bare k) : Wf (yield++k) := by
  have hg : Wf (gain++k) := wf_gain h (hb _ rfl) (hb _ rfl)
  have hw : Wf (.switch::(gain++k)) := ⟨hg,⟨hb.gain,Nat.succ_pos _⟩,hg.guarded⟩
  have hu : Wf (.unlock .schedSpinlock::.switch::(gain++k)) :=
    wf_unlock hw (fun _ => hb.gain _ rfl) (fun _ => Nat.succ_pos _)
  have hs : Wf (.select::.unlock .schedSpinlock::.switch::(gain++k)) := ⟨hu,trivial,hu.guarded⟩
  exact ⟨wf_lock hs (fun _ => by simp [needs]) nofun,Nat.succ_pos _,
    h.guarded.skip (fun _ => needs_yield) rfl⟩

theorem wf_sleepReleasing (e t : Bool) (mx : Mutex π γ μ) (h : Wf k) (hb : Bare k)
    (hm : mx≠.schedSpinlock) (hd : mx.nonPreemptive = true → 0 < depth k) :
    Wf (sleepReleasing e mx t++k) := by
  have hy : Wf (yield++.restore::k) := wf_yield (wf_restore h) hb
  have hs : Wf (.unlock .schedSpinlock::(yield++.restore::k)) :=
    wf_unlock hy (fun _ => Bare.yield (k := .restore::k) hb _ rfl) (fun _ => Nat.succ_pos _)
  have hx : Wf (.unlock mx::.unlock .schedSpinlock::(yield++.restore::k)) := by
    refine wf_unlock hs (fun hk => ?_) (fun _ => Nat.succ_pos _)
    have := Bare.yield (k := .restore::k) hb mx hk
    simpa [needs, hm] using this
  have ho : Wf (.stop e t::.unlock mx::.unlock .schedSpinlock::(yield++.restore::k)) :=
    ⟨hx,trivial,hx.guarded⟩
  have hl : Wf (.lock .schedSpinlock::.stop e t::.unlock mx::.unlock
    .schedSpinlock::(yield++.restore::k)) := by
    exact wf_lock ho (fun _ => by simp [needs]) nofun
  have hwf : Wf (.preemptOff::.lock .schedSpinlock::.stop e t::.unlock mx::.unlock
    .schedSpinlock::(yield++.restore::k)) := by
    refine ⟨hl,Nat.succ_pos _,fun l hn hk => ?_⟩
    have hk' : needs l (sleepReleasing e mx t++k) = true := by simpa [sleepReleasing] using hk
    rw [needs_sleepReleasing] at hk'
    split at hk'
    · cases hk'
    · split at hk'
      · subst l
        exact hd hn
      · exact h.guarded l hn hk'
  simpa [sleepReleasing] using hwf

theorem needs_condSignal (cv : CondVar π γ) (b : Bool) : needs l (condSignal cv b++k) =
    if l = .waitsetLock cv then false else needs l k := by
  by_cases hl : l = .waitsetLock cv <;> simp [condSignal, needs, hl]

theorem wf_condSignal (cv : CondVar π γ) (b : Bool) (h : Wf k)
    (hw : needs (.waitsetLock cv) k = false) (hs : needs .schedSpinlock k = false)
    (hd : (Mutex.waitsetLock cv : Mutex π γ μ).Suits (depth k)) : Wf (condSignal cv b++k) := by
  have hu : Wf (.unlock (.waitsetLock cv)::k) := wf_unlock h (fun _ => hw) hd.1
  have hg : Wf (.signal cv b::.unlock (.waitsetLock cv)::k) :=
    ⟨hu,by simpa [Fits, needs] using hs,hu.guarded⟩
  exact wf_lock hg (fun _ => by simp [needs]) hd.2

def Mutex.outer : Mutex π γ μ → Bool
  | .kernelMutex | .user _ => true
  | _ => false

theorem only_cvWait {m : Mutex π γ μ} (cv : CondVar π γ) (t : Bool) (hm : m.outer = true)
    (h : Only m k) :
    Only m (cvWait m cv t++k) := by
  have hw : m≠.waitsetLock cv := by rintro rfl; cases hm
  have hs : m≠.schedSpinlock := by rintro rfl; cases hm
  intro l hl
  have h := h l hl
  by_cases hlm : l = m
  · subst l
    simp [cvWait, needs, hw]
  · by_cases hlw : l = .waitsetLock cv
    · subst l
      simp [cvWait, needs, hlm]
    · by_cases hls : l = .schedSpinlock
      · subst l
        simp [cvWait, sleepReleasing, needs, hlm]
      · simpa [cvWait, sleepReleasing, yield, gain, needs, hlm, hlw, hls] using h

theorem wf_cvWait {m : Mutex π γ μ} (cv : CondVar π γ) (t : Bool) (hm : m.outer = true) (h : Wf k)
    (ho : Only m k) (hu : m.spins = false → depth k = 0)
    (hd : (Mutex.waitsetLock cv : Mutex π γ μ).Suits (depth k)) : Wf (cvWait m cv t++k) := by
  have hw : m≠.waitsetLock cv := by rintro rfl; cases hm
  have hs : m≠.schedSpinlock := by rintro rfl; cases hm
  have hp : m.nonPreemptive≠true := by cases m <;> simp_all [Mutex.outer, Mutex.nonPreemptive]
  -- the code after sleep_releasing, which holds nothing when it starts
  have hl : Wf (.lock m::k) := wf_lock h (fun hk => by simpa using ho m hk) hu
  have hbl : ∀ l : Mutex π γ μ, l.spins = true → needs l (.lock m::k) = false := by
    intro l hk
    by_cases hlm : l = m
    · simp [needs, hlm]
    · simpa [needs, hlm] using ho l hk
  have hu : Wf (.unlock (.waitsetLock cv)::.lock m::k) := wf_unlock hl (fun hk => hbl _ hk) hd.1
  have ht : Wf (.tidy cv::.unlock (.waitsetLock cv)::.lock m::k) := ⟨hu,trivial,hu.guarded⟩
  have ha : Wf (.lock (.waitsetLock cv)::.tidy cv::.unlock (.waitsetLock cv)::.lock m::k) :=
    wf_lock ht (fun _ => by simp [needs]) hd.2
  have hb : Bare (.lock (.waitsetLock cv)::.tidy cv::.unlock (.waitsetLock cv)::.lock m::k) := by
    intro l hk
    have := hbl l hk
    by_cases hlw : l = .waitsetLock cv <;> simp_all [needs]
  have hsl := wf_sleepReleasing false t (.waitsetLock cv) ha hb (by simp) hd.1
  have hum : Wf (.unlock m::(sleepReleasing false (.waitsetLock cv) t++
      .lock (.waitsetLock cv)::.tidy cv::.unlock (.waitsetLock cv)::.lock m::k)) := by
    refine wf_unlock hsl (fun hk => ?_) fun h => absurd h hp
    rw [needs_sleepReleasing, if_neg hs, if_neg hw]
    exact hb m hk
  have hpu : Wf (.push cv::.unlock m::(sleepReleasing false (.waitsetLock cv) t++
      .lock (.waitsetLock cv)::.tidy cv::.unlock (.waitsetLock cv)::.lock m::k)) :=
        ⟨hum,trivial,hum.guarded⟩
  have hwf : Wf (.lock (.waitsetLock cv)::.push cv::.unlock
    m::(sleepReleasing false (.waitsetLock cv) t++
      .lock (.waitsetLock cv)::.tidy cv::.unlock (.waitsetLock cv)::.lock m::k)) := by
    exact wf_lock hpu (fun _ => by simp [needs, needs_sleepReleasing]) hd.2
  simpa [cvWait] using hwf

theorem wf_acquire (h : Wf k) (hb : Bare k) :
    Wf (.testSem::.decr::.unlock .kernelMutex::k) ∧ Only .kernelMutex
    (.testSem::.decr::.unlock .kernelMutex::k) := by
  have hu : Wf (.unlock .kernelMutex::k) := wf_unlock h (fun _ => hb _ rfl) nofun
  have hd : Wf (.decr::.unlock .kernelMutex::k) := ⟨hu,trivial,hu.guarded⟩
  have ho : Only .kernelMutex (.decr::.unlock .kernelMutex::k) := by
    intro l hl
    by_cases hlk : l = .kernelMutex
    · simp [needs, hlk]
    · simpa [needs, hlk] using hb l hl
  exact ⟨⟨hd,ho,hd.guarded⟩,ho⟩

theorem wf_release (h : Wf k) (ho : Only .kernelMutex k) :
    Wf (.lock .kernelMutex::.incr::(condSignal .kernelSemCv false++k)) ∧
      Bare (.lock .kernelMutex::.incr::(condSignal .kernelSemCv false++k)) := by
  have hc : Wf (condSignal .kernelSemCv false++k) :=
    wf_condSignal .kernelSemCv false h (ho _ rfl) (ho _ rfl) ⟨nofun,nofun⟩
  have hi : Wf (.incr::(condSignal .kernelSemCv false++k)) := ⟨hc,trivial,hc.guarded⟩
  refine ⟨wf_lock hi (fun _ => ?_) nofun,fun l hl => ?_⟩
  · simp [needs, needs_condSignal, ho .kernelMutex rfl]
  · by_cases hlk : l = .kernelMutex
    · simp [needs, hlk]
    · simp [needs, needs_condSignal, hlk, ho l hl]

theorem wf_kernelWait (cv : CondVar π γ) (t : Bool) (h : Wf k) (hb : Bare k)
    (hd : (Mutex.waitsetLock cv : Mutex π γ μ).Suits (depth k)) :
    Wf (kernelWait cv t++k) ∧ Bare (kernelWait cv t++k) := by
  obtain ⟨ha,ho⟩ := wf_acquire h hb
  have hr := wf_release (wf_cvWait cv t rfl ha ho nofun hd) (only_cvWait cv t rfl ho)
  simpa [kernelWait] using hr

theorem wf_broadcasts (ports : List π) (h : Wf k)
    (hp : ∀ l : Mutex π γ μ, l.nonPreemptive = true → needs l k = false) :
    Wf (ports.flatMap (fun p => condSignal (.rxReady p) true)++.restore::k) ∧
      depth (ports.flatMap (fun p => condSignal (.rxReady p) true)++.restore::k) = depth k+1 ∧
      ∀ l : Mutex π γ μ,
        needs l (ports.flatMap (fun p => condSignal (.rxReady p) true)++.restore::k) = needs l
        k := by
  induction ports with
  | nil => exact ⟨wf_restore h,rfl,fun _ => rfl⟩
  | cons p ports ih =>
    obtain ⟨hw,hd,hn⟩ := ih
    rw [List.flatMap_cons, List.append_assoc]
    refine ⟨wf_condSignal _ true hw ?_ ?_ ⟨fun _ => ?_,nofun⟩,hd,fun l => ?_⟩
    · rw [hn]
      exact hp _ rfl
    · rw [hn]
      exact hp _ rfl
    · rw [hd]
      exact Nat.succ_pos _
    · rw [needs_condSignal, hn]
      split
      · subst l
        exact (hp _ rfl).symm
      · rfl

theorem wf_serialRxHandler (ports : List π) (h : Wf k)
    (hp : ∀ l : Mutex π γ μ, l.nonPreemptive = true → needs l k = false) :
    Wf (serialRxHandler ports++k) ∧ depth (serialRxHandler ports++k) = depth k ∧
      ∀ l : Mutex π γ μ, needs l (serialRxHandler ports++k) = needs l k := by
  obtain ⟨hw,hd,hn⟩ := wf_broadcasts ports h hp
  have hwf : Wf (.preemptOff::(ports.flatMap
    (fun p => condSignal (.rxReady p) true)++.restore::k)) :=
    ⟨hw,Nat.lt_of_lt_of_eq (Nat.succ_pos _) hd.symm,
      h.guarded.mono (fun l hl => (hn l).symm.trans hl) (by simp [depth, hd])⟩
  simpa [serialRxHandler, needs, depth, hd, hn] using hwf

theorem bare_nil : Bare ([] : List (Instr κ τ π γ μ)) := fun _ _ => rfl

theorem wf_call (f : Call τ π γ μ) :
    Wf (f.code : List (Instr κ τ π γ μ)) ∧ Bare (f.code : List (Instr κ τ π γ μ)) ∧
      depth (f.code : List (Instr κ τ π γ μ)) = 0 := by
  have hn : Wf ([] : List (Instr κ τ π γ μ)) := trivial
  cases f with
  | mutexLock m =>
    refine ⟨wf_lock hn nofun fun _ => rfl,fun l hl => ?_,rfl⟩
    simp [Call.code, needs]
  | mutexUnlock m =>
    refine ⟨wf_unlock hn nofun nofun,fun l hl => ?_,rfl⟩
    simp [Call.code, needs, Mutex.ne_user hl]
  | condWait m c timed =>
    have ho : Only (.user m) ([] : List (Instr κ τ π γ μ)) := fun l hl => by
      simp [needs, Mutex.ne_user hl]
    refine ⟨?_,fun l hl => ?_,rfl⟩
    · simpa [Call.code] using wf_cvWait (.other c) timed rfl hn ho (fun _ => rfl)
        ⟨nofun,fun _ => rfl⟩
    · have := only_cvWait (.other c) timed rfl ho l hl
      rw [List.append_nil] at this
      rw [Call.code, this]
      simp [Mutex.ne_user hl]
  | condSignal c broadcast =>
    refine ⟨?_,fun l hl => ?_,rfl⟩
    · simpa [Call.code] using wf_condSignal (.other c) broadcast hn rfl rfl ⟨nofun,fun _ => rfl⟩
    · by_cases hw : l = .waitsetLock (.other c) <;> simp [Call.code, condSignal, needs, hw]
  | kernelLock =>
    obtain ⟨ha,ho⟩ := wf_acquire hn bare_nil
    refine ⟨wf_lock ha (fun _ => ho _ rfl) nofun,fun l hl => ?_,rfl⟩
    by_cases hk : l = .kernelMutex <;> simp [Call.code, kernelLock, needs, hk]
  | kernelUnlock =>
    have hu : Wf [(Instr.unlock .kernelMutex : Instr κ τ π γ μ)] :=
      wf_unlock hn (fun _ => rfl) nofun
    have ho : Only .kernelMutex [(Instr.unlock .kernelMutex : Instr κ τ π γ μ)] := fun l _ => by
      by_cases hk : l = .kernelMutex <;> simp [needs, hk]
    obtain ⟨hw,hb⟩ := wf_release hu ho
    exact ⟨hw,hb,rfl⟩
  | kernelWait c timed =>
    obtain ⟨hw,hb⟩ := wf_kernelWait (.other c) timed hn bare_nil ⟨nofun,fun _ => rfl⟩
    rw [List.append_nil] at hw hb
    exact ⟨hw,hb,rfl⟩
  | kernelSleep exited =>
    have hs := wf_sleepReleasing exited false .kernelMutex hn bare_nil (by simp) nofun
    have ho : Only .kernelMutex
      (sleepReleasing exited .kernelMutex false++([] : List (Instr κ τ π γ μ))) := by
      intro l _
      rw [needs_sleepReleasing]
      by_cases hl : l = .schedSpinlock <;> by_cases hk : l = .kernelMutex <;> simp_all [needs]
    obtain ⟨hw,hb⟩ := wf_release hs ho
    rw [List.append_nil] at hw hb
    exact ⟨hw,hb,rfl⟩
  | spawnThread t =>
    refine ⟨wf_lock (wf_unlock hn (fun _ => rfl) nofun) (fun _ => by simp [needs]) nofun,
      fun l _ => ?_,rfl⟩
    by_cases hk : l = .activeThreadsSpinlock <;> simp [Call.code, countThread, needs, hk]
  | wakeup t =>
    have hw := wf_wakeup (.normal t) hn rfl
    rw [List.append_nil] at hw
    refine ⟨hw,fun l _ => ?_,rfl⟩
    by_cases hs : l = .schedSpinlock <;> simp [Call.code, wakeup, needs, hs]
  | serialRead port =>
    have ho : Wf [(Instr.preemptOn : Instr κ τ π γ μ)] := ⟨hn,rfl,.of_depth (Nat.succ_pos _)⟩
    have hp : Wf [(Instr.poll port : Instr κ τ π γ μ),.preemptOn] :=
      ⟨ho,⟨fun _ _ => rfl,Nat.succ_pos _⟩,.of_depth (Nat.succ_pos _)⟩
    exact ⟨⟨hp,Nat.succ_pos _,fun _ _ h => by cases h⟩,fun _ _ => rfl,rfl⟩
  | yield =>
    have hw := wf_yield hn bare_nil
    have hb : Bare (Spin.yield++([] : List (Instr κ τ π γ μ))) := bare_nil.yield
    rw [List.append_nil] at hw hb
    exact ⟨hw,hb,rfl⟩

end TinyOS.Spin
