import TinyOS.Util.Unwind

/-! Programs with try blocks. Every piece of code comes to an end below its own part of the
stack, by induction on the code; what it logs tells the story of all blocks it entered. -/
namespace TinyOS.Exceptions
variable {σ : Type}

abbrev Registration (σ : Type) := Kind × HandlerFrame σ

def Scope.events {b : Bool} : Scope b → List (Registration σ) → List Event
  | .outside, _ => []
  | .inside f, regs => regs.map fun r => .registered f r.1 r.2.id

theorem Scope.events_append {b : Bool} (scope : Scope b) (regs regs' : List (Registration σ)) :
    scope.events (regs++regs') = scope.events regs++scope.events regs' := by
  cases scope with
  | outside => rfl
  | inside f => exact List.map_append

structure Ran {b : Bool} (scope : Scope b) (regs : List (Registration σ)) (s s' : Store σ)
    (L : List Event) : Prop where
  events : Extends scope.own (scope.events regs) s s' L
  context : s'.context = s.context
  frame : ∀ f, scope.own = some f → s'.frames f = regs.foldl StackFrame.push (s.frames f)
  distinct : (regs.map (·.2.id)).Nodup
  new : ∀ r∈regs, s.fresh ≤ r.2.id ∧ r.2.id < s'.fresh

/-- Code that comes to an end wherever it may run, and registers handlers that do. -/
def Runs {b : Bool} (c : Code σ b) : Prop :=
  ∀ (s : Store σ) (scope : Scope b) (K : List (Item σ)), Ready s scope K → ∃ s' regs L,
    Ran scope regs s s' L ∧ (∀ r∈regs, ∀ e, Good (r.2.handler e)) ∧
    Ends ⟨s,.run c scope::K⟩ s' K

theorem Runs.good {c : Code σ false} (h : Runs c) : Good c := by
  intro s K hr
  obtain ⟨s',regs,L,hran,_,hends⟩ := h s .outside K hr
  exact ⟨s',L,hran.events,hran.context,hends⟩

section
variable {b : Bool} {scope : Scope b} {s s' s'' : Store σ} {K : List (Item σ)}

theorem Ready.own_lt (h : Ready s scope K) : ∀ f, scope.own = some f → f < s.fresh :=
  fun f hf => (h.landing f (h.context f hf)).1

theorem Ready.later (h : Ready s scope K) (hc : s'.context = s.context)
    (hle : s.fresh ≤ s'.fresh) : Ready s' scope K where
  context f hf := hc.trans (h.context f hf)
  landing f hf :=
    have hl := h.landing f (hc.symm.trans hf)
    ⟨Nat.lt_of_lt_of_le hl.1 hle,hl.2⟩

theorem Extends.ran {L : List Event} (h : Extends none [] s s' L) (scope : Scope b)
    (hown : ∀ f, scope.own = some f → f < s.fresh) (hc : s'.context = s.context) :
    Ran scope [] s s' L where
  events := by cases scope <;> exact h.within _
  context := hc
  frame f hf := h.frames_eq f (hown f hf) nofun
  distinct := List.nodup_nil
  new := nofun

theorem Ran.trans {regs regs' : List (Registration σ)} {L L' : List Event}
    (hown : ∀ f, scope.own = some f → f < s.fresh) (h : Ran scope regs s s' L)
    (h' : Ran scope regs' s' s'' L') : Ran scope (regs++regs') s s'' (L++L') where
  events := by
    rw [Scope.events_append]
    exact h.events.trans hown h'.events
  context := h'.context.trans h.context
  frame f hf := by rw [h'.frame f hf,h.frame f hf,List.foldl_append]
  distinct := by
    rw [List.map_append]
    refine h.distinct.append h'.distinct fun i hi hi' => ?_
    obtain ⟨r,hr,rfl⟩ := List.mem_map.mp hi
    obtain ⟨r',hr',heq⟩ := List.mem_map.mp hi'
    have := (h.new r hr).2
    have := (h'.new r' hr').1
    omega
  new r hr := by
    have := h.events.fresh_le
    have := h'.events.fresh_le
    cases List.mem_append.mp hr with
    | inl hr =>
      have := h.new r hr
      omega
    | inr hr =>
      have := h'.new r hr
      omega

theorem Runs.after {c : Code σ b} {regs : List (Registration σ)} {L : List Event}
    {m : Machine σ} (hc : Runs c) (hr : Ready s scope K) (h : Ran scope regs s s' L)
    (hg : ∀ r∈regs, ∀ e, Good (r.2.handler e)) (hm : Reaches m ⟨s',.run c scope::K⟩) :
    ∃ s'' regs L, Ran scope regs s s'' L ∧ (∀ r∈regs, ∀ e, Good (r.2.handler e)) ∧
      Ends m s'' K := by
  obtain ⟨s'',regs',L',h',hg',hends⟩ :=
    hc s' scope K (hr.later h.context h.events.fresh_le)
  refine ⟨s'',regs++regs',L++L',h.trans hr.own_lt h',fun r hmem => ?_,hends.after hm⟩
  cases List.mem_append.mp hmem with
  | inl hmem => exact hg r hmem
  | inr hmem => exact hg' r hmem

end

def handlerFrames (kind : Kind) (regs : List (Registration σ)) : List (HandlerFrame σ) :=
  (regs.filter (·.1=kind)).map (·.2)

theorem mem_handlerFrames {kind : Kind} {regs : List (Registration σ)} {h : HandlerFrame σ}
    (hm : h∈handlerFrames kind regs) : ∃ r∈regs, r.2 = h := by
  obtain ⟨r,hr,rfl⟩ := List.mem_map.mp hm
  exact ⟨r,List.mem_of_mem_filter hr,rfl⟩

theorem push_frame (next : Option Nat) (cs fs : List (HandlerFrame σ))
    (regs : List (Registration σ)) : regs.foldl StackFrame.push ⟨next,cs,fs⟩ =
      ⟨next,(handlerFrames .catcher regs).reverse++cs,
        (handlerFrames .finalizer regs).reverse++fs⟩ := by
  induction regs generalizing cs fs with
  | nil => rfl
  | cons r regs ih =>
    obtain ⟨kind,h⟩ := r
    cases kind with
    | catcher => simp [StackFrame.push,ih,handlerFrames]
    | finalizer => simp [StackFrame.push,ih,handlerFrames]

theorem handlersOf_ids (kind : Kind) (regs : List (Registration σ)) :
    handlersOf kind (regs.map fun r => (r.1,r.2.id)) = (handlerFrames kind regs).map (·.id) := by
  simp [handlersOf,handlerFrames,List.filter_map,Function.comp_def]

section
variable {b : Bool} {f : Nat} {ctx : Option Nat} {body : Code σ true} {k : Code σ b}
  {scope : Scope b} {s s' : Store σ} {K : List (Item σ)}

theorem Extends.close {E L : List Event} {s₁ : Store σ} (e : Event) (he : e.frame = s.fresh)
    (hf : s₁.fresh = s.fresh+1) (hl : s₁.log = s.log++[e])
    (hs : ∀ g, g≠s.fresh → s₁.frames g = s.frames g) (h : Extends (some s.fresh) E s₁ s' L)
    (ht : Told s.fresh (e::E)) : Extends none [] s s' (e::L) where
  fresh_le := by
    have := h.fresh_le
    omega
  log_eq := by rw [h.log_eq,hl,List.append_assoc,List.singleton_append]
  frames_eq g hg _ := by
    have hne : s.fresh≠g := by omega
    rw [h.frames_eq g (by omega) fun he => hne (Option.some.inj he),hs g hne.symm]
  older g hg := by
    have hne : s.fresh≠g := by omega
    rw [history_cons_other (he ▸ hne),h.older g (by omega),
      if_neg fun he => hne (Option.some.inj he),if_neg nofun]
  younger g hg := by
    by_cases hne : s.fresh = g
    · subst hne
      right
      rw [history_cons_own he,h.older s.fresh (by omega),if_pos rfl]
      exact ht
    · rw [history_cons_other (he ▸ hne)]
      exact h.younger g (by omega)
  unborn g hg := by
    have := h.fresh_le
    have hne : s.fresh≠g := by omega
    rw [history_cons_other (he ▸ hne),h.unborn g hg]

def Store.entered (s : Store σ) : Store σ :=
  excPushFrame ({ s.setFrame s.fresh ⟨none,[],[]⟩ with fresh := s.fresh+1 }.emit
    (.entered s.fresh s.context)) s.fresh

theorem step_tryWith : step ⟨s,.run (.tryWith body k) scope::K⟩ = some ⟨s.entered,
    .run body (.inside s.fresh)::.exitTry::.block s.fresh body k scope::K⟩ := rfl

theorem entered_self (s : Store σ) : s.entered.frames s.fresh = ⟨s.context,[],[]⟩ := by
  simp [Store.entered,excPushFrame,Store.setFrame,Store.emit]

theorem entered_of_ne (s : Store σ) {g : Nat} (h : g≠s.fresh) :
    s.entered.frames g = s.frames g := by
  simp [Store.entered,excPushFrame,Store.setFrame,Store.emit,Function.update_of_ne h]

theorem body_ended {B : List (Item σ)} {m : Machine σ} (hc : s.context = some f)
    (hf : f < s.fresh) (hB : backTo f B = some B) (hends : Ends m s (.exitTry::B)) :
    ∃ s' L, ∃ raised : Bool, Extends (some f) [if raised then .raised f else .completed f] s s' L ∧
      s'.context = some f ∧ s'.frames f = { s.frames f with
        catchers := if raised then (s.frames f).catchers else [] } ∧
      Reaches m ⟨s',.unwind f (if raised then 1 else 0) false .catcher none::B⟩ := by
  cases hends with
  | falls h =>
    let fr := { s.frames f with catchers := [] }
    have hstep : step ⟨s,.exitTry::B⟩ = some ⟨(s.setFrame f fr).emit (.completed f),
        .unwind f 0 false .catcher none::B⟩ := by
      simp only [step,excExitTry,hc,Option.bind_some,exceptionUnwind,Store.emit,Store.setFrame,
        Option.map_some,fr]
    exact ⟨(s.setFrame f fr).emit (.completed f),_,false,
      .event _ rfl hf (Nat.le_refl _) rfl fun g hg => s.setFrame_of_ne fr hg,
      hc,s.setFrame_self f fr,h.tail hstep⟩
  | raises _ hr h =>
    cases (raiseException_eq (K := .exitTry::B) hc hB).symm.trans hr
    exact ⟨s.emit (.raised f),_,true,.event _ rfl hf (Nat.le_refl _) rfl fun _ _ => rfl,hc,rfl,h⟩

theorem told_block {regs : List (Registration σ)} {cc fc : List Call} {raised reraised : Bool}
    (hd : (regs.map (·.2.id)).Nodup)
    (hc : cc.map (·.handler) =
      (if raised then (handlerFrames .catcher regs).reverse else []).map (·.id))
    (hf : fc.map (·.handler) = (handlerFrames .finalizer regs).reverse.map (·.id))
    (hp : Propagates cc fc raised reraised) :
    Told f (.entered f ctx::(Scope.inside f).events regs++
      (if raised then .raised f else .completed f)::((cc++fc).flatMap (Call.events f)++
        [.left f ctx reraised])) := by
  refine ⟨⟨ctx,regs.map fun r => (r.1,r.2.id),raised,cc,fc,reraised⟩,⟨?_,?_,?_⟩,hp,?_⟩
  · rwa [List.map_map]
  · rw [handlersOf_ids,hc]
    cases raised with
    | true => exact List.map_reverse
    | false => rfl
  · rw [handlersOf_ids,hf,List.map_reverse]
  · simp [Report.events,Scope.events,Function.comp_def]

theorem block_unwinds (hbody : Runs body) (hr : Ready s scope K) : ∃ s' L m',
    Extends none [] s s' L ∧ s'.context = s.context ∧
    (∃ reraised : Bool, (if reraised then raiseException s' (.block s.fresh body k scope::K)
      else some ⟨s',.block s.fresh body k scope::K⟩) = some m') ∧
    Reaches ⟨s,.run (.tryWith body k) scope::K⟩ m' := by
  let B : List (Item σ) := .block s.fresh body k scope::K
  have hB : backTo s.fresh B = some B := if_pos rfl
  have hn : ∀ g, s.context = some g → ∃ K', backTo g B = some K' := by
    intro g hg
    obtain ⟨hlt,hland⟩ := hr.landing g hg
    have hne : s.fresh≠g := by omega
    simpa only [B,backTo,if_neg hne] using hland
  have hready : Ready s.entered (.inside s.fresh) (.exitTry::B) := by
    refine ⟨fun g hg => hg,fun g hg => ?_⟩
    cases hg
    exact ⟨Nat.lt_succ_self _,B,hB⟩
  obtain ⟨s₁,regs,L₁,hran,hgood,hends⟩ := hbody s.entered (.inside s.fresh) (.exitTry::B) hready
  have hf₁ : s.fresh < s₁.fresh := hran.events.fresh_le
  have hfr₁ : s₁.frames s.fresh = ⟨s.context,(handlerFrames .catcher regs).reverse,
      (handlerFrames .finalizer regs).reverse⟩ := by
    rw [hran.frame s.fresh rfl,entered_self,push_frame,List.append_nil,List.append_nil]
  obtain ⟨s₂,L₂,raised,hout,hc₂,hfr₂,hreach⟩ :=
    body_ended (hran.context.trans rfl) hf₁ hB (hends.after (.step step_tryWith))
  rw [hfr₁] at hfr₂
  have hf₂ : s.fresh < s₂.fresh := Nat.lt_of_lt_of_le hf₁ hout.fresh_le
  have hg₂ : ∀ h∈(if raised then (handlerFrames .catcher regs).reverse else [])++
      (handlerFrames .finalizer regs).reverse, ∀ e, Good (h.handler e) := by
    intro h hm
    have hmem : ∃ kind, h∈handlerFrames kind regs := by
      cases List.mem_append.mp hm with
      | inl hm =>
        cases raised with
        | true => exact ⟨_,List.mem_reverse.mp hm⟩
        | false => cases hm
      | inr hm => exact ⟨_,List.mem_reverse.mp hm⟩
    obtain ⟨kind,hm⟩ := hmem
    obtain ⟨r,hr,rfl⟩ := mem_handlerFrames hm
    exact hgood r hr
  obtain ⟨s₃,L₃,cc,fc,reraised,m',hu,hm,hreach'⟩ :=
    catchers_unwind (if raised then 1 else 0) false hc₂ hf₂ hfr₂ hg₂ hB hn
  have hp : Propagates cc fc raised reraised := by
    have hp := hu.propagates
    cases raised with
    | true => exact hp
    | false => exact hp
  have hown : ∀ g, some s.fresh = some g → g < s.entered.fresh :=
    fun g he => Option.some.inj he ▸ Nat.lt_succ_self _
  have hall := (hran.events.trans hown hout).trans hown hu.events
  refine ⟨s₃,_,m',.close _ rfl rfl rfl (fun g hg => entered_of_ne s hg) hall ?_,hu.context,
    ⟨reraised,hm⟩,hreach.trans hreach'⟩
  simpa using told_block hran.distinct hu.catchers hu.finalizers hp

theorem Runs.tryWith (hbody : Runs body) (hk : Runs k) : Runs (.tryWith body k) := by
  intro s scope K hr
  obtain ⟨s',L,m',hext,hc,⟨reraised,hm⟩,hreach⟩ := block_unwinds (k := k) hbody hr
  have hran : Ran scope [] s s' L := hext.ran scope hr.own_lt hc
  have hk : Reaches ⟨s,.run (.tryWith body k) scope::K⟩
      ⟨s',.block s.fresh body k scope::K⟩ → ∃ s'' regs L, Ran scope regs s s'' L ∧
      (∀ r∈regs, ∀ e, Good (r.2.handler e)) ∧ Ends ⟨s,.run (.tryWith body k) scope::K⟩ s'' K :=
    fun h => hk.after hr hran nofun (h.tail rfl)
  cases reraised with
  | false =>
    cases hm
    exact hk hreach
  | true =>
    cases hctx : s'.context with
    | none =>
      simp only [if_pos,raiseException,hctx] at hm
      cases hm
      exact hk hreach
    | some g =>
      obtain ⟨hlt,K',hK⟩ := hr.landing g (hc.symm.trans hctx)
      have hne : s.fresh≠g := by omega
      have hK' : backTo g (.block s.fresh body k scope::K) = some K' := (if_neg hne).trans hK
      cases (raiseException_eq hctx hK').symm.trans hm
      have hsome : s'.context≠none := by simp [hctx]
      exact ⟨s',[],L,hran,nofun,.raises hsome (raiseException_eq hctx hK) hreach⟩

theorem Runs.register {kind : Kind} {handler : Int → Code σ false} {k : Code σ true}
    (hh : ∀ e, Good (handler e)) (hk : Runs k) : Runs (.register kind handler k) := by
  intro s scope K hr
  cases scope with
  | inside f =>
    have hf : f < s.fresh := hr.own_lt f rfl
    let fr := (s.frames f).push (kind,⟨s.fresh,handler⟩)
    have hran : Ran (.inside f) [(kind,⟨s.fresh,handler⟩)] s (registerHandler s f kind handler)
        [.registered f kind s.fresh] := {
      events := .event _ rfl hf (Nat.le_succ _) rfl fun g hg => s.setFrame_of_ne fr hg
      context := rfl
      frame g hg := by
        cases hg
        exact s.setFrame_self f fr
      distinct := List.nodup_singleton _
      new r hr := by
        cases List.mem_singleton.mp hr
        exact ⟨Nat.le_refl _,Nat.lt_succ_self _⟩ }
    refine hk.after hr hran (fun r hr => ?_) (.step rfl)
    cases List.mem_singleton.mp hr
    exact hh

/-- Every piece of code comes to an end, with the stories of its blocks in the log. -/
theorem runs (c : Code σ b) : Runs c := by
  induction c with
  | done =>
    intro s scope K hr
    have hext : Extends none [] s s [] := .silent none rfl rfl rfl
    exact ⟨s,[],[],hext.ran scope hr.own_lt rfl,nofun,.falls (.step rfl)⟩
  | act g k ih =>
    intro s scope K hr
    have hext : Extends none [] s { s with user := g s.user } [] := .silent none rfl rfl rfl
    exact ih.after hr (hext.ran scope hr.own_lt rfl) nofun (.step rfl)
  | branch k ih =>
    intro s scope K hr
    have hext : Extends none [] s s [] := .silent none rfl rfl rfl
    exact (ih s.user).after hr (hext.ran scope hr.own_lt rfl) nofun (.step rfl)
  | raise k ih =>
    intro s scope K hr
    have hext : Extends none [] s s [] := .silent none rfl rfl rfl
    have hran := hext.ran scope hr.own_lt rfl
    cases hctx : s.context with
    | none =>
      have hstep : step ⟨s,.run (.raise k) scope::K⟩ = some ⟨s,.run k scope::K⟩ := by
        simp only [step,stepCode,raiseException,hctx]
      exact ih.after hr hran nofun (.step hstep)
    | some f =>
      obtain ⟨K',hK⟩ := (hr.landing f hctx).2
      have hstep : step ⟨s,.run (.raise k) scope::K⟩ = _ :=
        raiseException_eq (K := .run k scope::K) hctx hK
      have hsome : s.context≠none := by simp [hctx]
      exact ⟨s,[],[],hran,nofun,.raises hsome (raiseException_eq hctx hK) (.step hstep)⟩
  | tryWith body k ihbody ih => exact ihbody.tryWith ih
  | register kind handler k ihh ih => exact ih.register fun e => (ihh e).good

end

end TinyOS.Exceptions
