import Mathlib.Data.List.Flatten
import Mathlib.Data.List.Nodup
import Mathlib.Logic.Relation
import TinyOS.Util.Exceptions

/-! One unwinding of a block, over all the activations of exception_unwind that handlers
which raise cut short. Both lists shrink at every call, and no handler sees them. -/
namespace TinyOS.Exceptions
variable {σ : Type}

def Step (m m' : Machine σ) : Prop := step m = some m'

abbrev Reaches : Machine σ → Machine σ → Prop := Relation.ReflTransGen Step

theorem Reaches.step {m m' : Machine σ} (h : step m = some m') : Reaches m m' := .single h

def history (f : Nat) (log : List Event) : List Event := log.filter (·.frame=f)

@[simp] theorem history_nil (f : Nat) : history f [] = [] := rfl

@[simp] theorem history_append (f : Nat) (l l' : List Event) :
    history f (l++l') = history f l++history f l' := List.filter_append ..

theorem history_cons_own {f : Nat} {e : Event} (he : e.frame = f) (l : List Event) :
    history f (e::l) = e::history f l := by
  simp [history,he]

theorem history_cons_other {f : Nat} {e : Event} (he : e.frame≠f) (l : List Event) :
    history f (e::l) = history f l := by
  simp [history,he]

/-- A handler that exception_unwind called, and whether it returned. -/
structure Call where
  handler : Nat
  errcode : Int
  returned : Bool

def Call.events (f : Nat) (c : Call) : List Event :=
  [.started f c.handler c.errcode, if c.returned then .returned f c.handler else .raised f]

/-- All that happens to a block, from its head to the pop of its frame. -/
structure Report where
  context : Option Nat
  registered : List (Kind × Nat)
  /-- The body raised. -/
  raised : Bool
  catchers : List Call
  finalizers : List Call
  reraised : Bool

def Report.events (f : Nat) (r : Report) : List Event :=
  .entered f r.context::r.registered.map (fun x => .registered f x.1 x.2)++
    (if r.raised then .raised f else .completed f)::
    (r.catchers++r.finalizers).flatMap (Call.events f)++[.left f r.context r.reraised]

def handlersOf (kind : Kind) (rs : List (Kind × Nat)) : List Nat :=
  (rs.filter (·.1=kind)).map (·.2)

/-- Each handler is called once, in the reverse of the order of registration, the
finalizers behind the catchers; the catchers only if the body raised. -/
structure Report.Orderly (r : Report) : Prop where
  distinct : (r.registered.map (·.2)).Nodup
  catchers : r.catchers.map (·.handler) =
    if r.raised then (handlersOf .catcher r.registered).reverse else []
  finalizers : r.finalizers.map (·.handler) = (handlersOf .finalizer r.registered).reverse

/-- The last activation has an exception that no catcher of its own has captured. -/
def Propagates (catchers finalizers : List Call) (pending reraised : Bool) : Prop :=
  reraised = true ↔ (∃ c∈finalizers, c.returned = false) ∨
    (∃ c∈catchers.getLast?, c.returned = false) ∨ catchers = [] ∧ pending = true

def Told (f : Nat) (E : List Event) : Prop :=
  ∃ r : Report, r.Orderly ∧ Propagates r.catchers r.finalizers r.raised r.reraised ∧
    E = r.events f

/-- The log grows by L, with the events E of the own frame; older frames are left alone,
and of every younger one the whole story is told. -/
structure Extends (own : Option Nat) (E : List Event) (s s' : Store σ) (L : List Event) :
    Prop where
  fresh_le : s.fresh ≤ s'.fresh
  log_eq : s'.log = s.log++L
  frames_eq : ∀ g, g < s.fresh → own≠some g → s'.frames g = s.frames g
  older : ∀ g, g < s.fresh → history g L = if own = some g then E else []
  younger : ∀ g, s.fresh≤g → history g L = [] ∨ Told g (history g L)
  unborn : ∀ g, s'.fresh≤g → history g L = []

theorem Extends.trans {own : Option Nat} {E E' L L' : List Event} {s s' s'' : Store σ}
    (hown : ∀ f, own = some f → f < s.fresh) (h : Extends own E s s' L)
    (h' : Extends own E' s' s'' L') : Extends own (E++E') s s'' (L++L') where
  fresh_le := Nat.le_trans h.fresh_le h'.fresh_le
  log_eq := by rw [h'.log_eq,h.log_eq,List.append_assoc]
  frames_eq g hg hne :=
    (h'.frames_eq g (Nat.lt_of_lt_of_le hg h.fresh_le) hne).trans (h.frames_eq g hg hne)
  older g hg := by
    rw [history_append,h.older g hg,h'.older g (Nat.lt_of_lt_of_le hg h.fresh_le)]
    split <;> rfl
  younger g hg := by
    rw [history_append]
    by_cases hg' : g < s'.fresh
    · have hne : own≠some g := fun he => absurd (hown g he) (Nat.not_lt.mpr hg)
      rw [h'.older g hg',if_neg hne,List.append_nil]
      exact h.younger g hg
    · rw [h.unborn g (Nat.le_of_not_lt hg'),List.nil_append]
      exact h'.younger g (Nat.le_of_not_lt hg')
  unborn g hg := by
    rw [history_append,h.unborn g (Nat.le_trans h'.fresh_le hg),h'.unborn g hg,List.nil_append]

theorem Extends.within {E L : List Event} {s s' : Store σ} (h : Extends none E s s' L)
    (own : Option Nat) : Extends own [] s s' L where
  fresh_le := h.fresh_le
  log_eq := h.log_eq
  frames_eq g hg _ := h.frames_eq g hg nofun
  older g hg := by rw [h.older g hg,if_neg nofun,ite_self]
  younger := h.younger
  unborn := h.unborn

theorem Extends.silent {s s' : Store σ} (own : Option Nat) (hf : s'.fresh = s.fresh)
    (hl : s'.log = s.log) (hs : s'.frames = s.frames) : Extends own [] s s' [] where
  fresh_le := Nat.le_of_eq hf.symm
  log_eq := by rw [hl,List.append_nil]
  frames_eq g _ _ := by rw [hs]
  older g _ := by rw [history_nil,ite_self]
  younger g _ := .inl rfl
  unborn g _ := rfl

theorem Extends.event {s s' : Store σ} {f : Nat} (e : Event) (he : e.frame = f)
    (hf : f < s.fresh) (hle : s.fresh ≤ s'.fresh) (hl : s'.log = s.log++[e])
    (hs : ∀ g, g≠f → s'.frames g = s.frames g) : Extends (some f) [e] s s' [e] where
  fresh_le := hle
  log_eq := hl
  frames_eq g _ hne := hs g fun heq => hne (congrArg some heq.symm)
  older g _ := by simp [history,he,List.filter_cons]
  younger g hg := .inl (history_cons_other (by omega) [])
  unborn g hg := history_cons_other (by omega) []

theorem Propagates.catcher_returned {cs fs : List Call} {p r : Bool} (c : Call)
    (hc : c.returned = true) (h : Propagates cs fs false r) : Propagates (c::cs) fs p r := by
  cases cs with
  | nil => simpa [Propagates,hc] using h
  | cons d cs => simpa [Propagates,List.getLast?_cons_cons] using h

theorem Propagates.catcher_raised {cs fs : List Call} {p r : Bool} (c : Call)
    (hc : c.returned = false) (h : Propagates cs fs true r) : Propagates (c::cs) fs p r := by
  cases cs with
  | nil => simpa [Propagates,hc] using h
  | cons d cs => simpa [Propagates,List.getLast?_cons_cons] using h

theorem Propagates.finalizer_returned {fs : List Call} {p r : Bool} (c : Call)
    (hc : c.returned = true) (h : Propagates [] fs p r) : Propagates [] (c::fs) p r := by
  simpa [Propagates,hc] using h

theorem Propagates.finalizer_raised {fs : List Call} {p r : Bool} (c : Call)
    (hc : c.returned = false) (h : Propagates [] fs true r) : Propagates [] (c::fs) p r := by
  simpa [Propagates,hc] using h

theorem backTo_block {f : Nat} {K K' : List (Item σ)} (h : backTo f K = some K') :
    ∃ (b : Bool) (body : Code σ true) (k : Code σ b) (scope : Scope b) (K'' : List (Item σ)),
      K' = .block f body k scope::K'' := by
  induction K with
  | nil => cases h
  | cons i K ih =>
    cases i with
    | block g body k scope =>
      simp only [backTo] at h
      split at h
      · next heq =>
        cases h
        exact heq ▸ ⟨_,body,k,scope,K,rfl⟩
      · exact ih h
    | _ => exact ih h

theorem raiseException_eq {s : Store σ} {f : Nat} {K K' : List (Item σ)}
    (hc : s.context = some f) (hK : backTo f K = some K') :
    raiseException s K = some ⟨s.emit (.raised f),.unwind f 1 false .catcher none::K'⟩ := by
  obtain ⟨b,body,k,scope,K'',rfl⟩ := backTo_block hK
  have hne : ¬(1:Int) = 0 := by decide
  simp only [raiseException,hc,longjmp,hK,excTry,if_neg hne,exceptionUnwind,Store.emit,
    Option.map_some]

inductive Ends (m : Machine σ) (s : Store σ) (K : List (Item σ)) : Prop where
  | falls (h : Reaches m ⟨s,K⟩)
  | raises {m' : Machine σ} (hc : s.context≠none) (hr : raiseException s K = some m')
      (h : Reaches m m')

theorem Ends.after {m m' : Machine σ} {s : Store σ} {K : List (Item σ)} (h : Reaches m m')
    (h' : Ends m' s K) : Ends m s K := by
  cases h' with
  | falls h' => exact .falls (h.trans h')
  | raises hc hr h' => exact .raises hc hr (h.trans h')

def Scope.own {b : Bool} : Scope b → Option Nat
  | .outside => none
  | .inside f => some f

/-- Where code may run: in the body of the block of *context or outside of one, and with
the block of *context on the stack below. -/
structure Ready {b : Bool} (s : Store σ) (scope : Scope b) (K : List (Item σ)) : Prop where
  context : ∀ f, scope.own = some f → s.context = some f
  landing : ∀ f, s.context = some f → f < s.fresh ∧ ∃ K', backTo f K = some K'

def Good (c : Code σ false) : Prop :=
  ∀ (s : Store σ) (K : List (Item σ)), Ready s .outside K → ∃ s' L,
    Extends none [] s s' L ∧ s'.context = s.context ∧ Ends ⟨s,.run c .outside::K⟩ s' K

section
variable {f : Nat} {next : Option Nat} {B : List (Item σ)}

theorem handler_called {s : Store σ} (fr : StackFrame σ) {h : HandlerFrame σ} (e : Int)
    (captured : Bool) (loop : Kind) (hc : s.context = some f) (hf : f < s.fresh)
    (hB : backTo f B = some B) (hg : Good (h.handler e)) : ∃ s' L returned,
      Extends (some f) (Call.events f ⟨h.id,e,returned⟩) s s' L ∧ s'.context = some f ∧
      s'.frames f = fr ∧ Reaches (callHandler s f fr e captured loop h B)
        ⟨s',(if returned then .unwind f e captured loop none
          else .unwind f 1 false .catcher none)::B⟩ := by
  let s₁ := (s.setFrame f fr).emit (.started f h.id e)
  let K₁ : List (Item σ) := .unwind f e captured loop (some h.id)::B
  have hland : backTo f K₁ = some B := hB
  have hready : Ready s₁ .outside K₁ := by
    refine ⟨nofun,fun g hg => ?_⟩
    cases hc.symm.trans hg
    exact ⟨hf,B,hland⟩
  have hstart : Extends (some f) [.started f h.id e] s s₁ [.started f h.id e] :=
    .event _ rfl hf (Nat.le_refl _) rfl fun g hne => s.setFrame_of_ne fr hne
  have hown : ∀ g, some f = some g → g < s.fresh := fun g he => Option.some.inj he ▸ hf
  obtain ⟨s₂,L,hrun,hc₂,hends⟩ := hg s₁ K₁ hready
  have hc₂ : s₂.context = some f := hc₂.trans hc
  have hf₂ : f < s₂.fresh := Nat.lt_of_lt_of_le hf hrun.fresh_le
  have hfr : s₂.frames f = fr :=
    (hrun.frames_eq f hf nofun).trans (s.setFrame_self f fr)
  have hrun : Extends (some f) [.started f h.id e] s s₂ ([.started f h.id e]++L) :=
    hstart.trans hown (hrun.within (some f))
  cases hends with
  | falls hreach =>
    exact ⟨s₂.emit (.returned f h.id),_,true,
      hrun.trans hown (.event _ rfl hf₂ (Nat.le_refl _) rfl fun _ _ => rfl),
      hc₂,hfr,hreach.tail rfl⟩
  | raises _ hr hreach =>
    cases (raiseException_eq hc₂ hland).symm.trans hr
    exact ⟨s₂.emit (.raised f),_,false,
      hrun.trans hown (.event _ rfl hf₂ (Nat.le_refl _) rfl fun _ _ => rfl),hc₂,hfr,hreach⟩

/-- What an unwinding has done by the pop of its frame, when it began with the catchers cs
and the finalizers fs. -/
structure Unwound (f : Nat) (next : Option Nat) (cs fs : List (HandlerFrame σ)) (pending : Bool)
    (s s' : Store σ) (L : List Event) (cc fc : List Call) (reraised : Bool) : Prop where
  events : Extends (some f)
    ((cc++fc).flatMap (Call.events f)++[.left f next reraised]) s s' L
  context : s'.context = next
  catchers : cc.map (·.handler) = cs.map (·.id)
  finalizers : fc.map (·.handler) = fs.map (·.id)
  propagates : Propagates cc fc pending reraised

/-- The unwinding under way in m ends, and the exception goes on or it does not. -/
def Unwinds (f : Nat) (next : Option Nat) (cs fs : List (HandlerFrame σ)) (pending : Bool)
    (s : Store σ) (m : Machine σ) (B : List (Item σ)) : Prop :=
  ∃ s' L cc fc reraised m', Unwound f next cs fs pending s s' L cc fc reraised ∧
    (if reraised then raiseException s' B else some ⟨s',B⟩) = some m' ∧ Reaches m m'

theorem Unwinds.catcher {cs fs : List (HandlerFrame σ)} {p p' : Bool} {s s₁ : Store σ}
    {m m₁ : Machine σ} {L₁ : List Event} {h : HandlerFrame σ} {c : Call}
    (hf : f < s.fresh) (hc : c.handler = h.id) (hcall : Extends (some f) (c.events f) s s₁ L₁)
    (hreach : Reaches m m₁)
    (hp : ∀ cc fc r, Propagates cc fc p' r → Propagates (c::cc) fc p r)
    (hu : Unwinds f next cs fs p' s₁ m₁ B) : Unwinds f next (h::cs) fs p s m B := by
  obtain ⟨s',L,cc,fc,r,m',hu,hm,hreach'⟩ := hu
  have hown : ∀ g, some f = some g → g < s.fresh := fun g he => Option.some.inj he ▸ hf
  refine ⟨s',L₁++L,c::cc,fc,r,m',⟨?_,hu.context,?_,hu.finalizers,hp cc fc r hu.propagates⟩,
    hm,hreach.trans hreach'⟩
  · simpa using hcall.trans hown hu.events
  · rw [List.map_cons,List.map_cons,hc,hu.catchers]

theorem Unwinds.finalizer {fs : List (HandlerFrame σ)} {p p' : Bool} {s s₁ : Store σ}
    {m m₁ : Machine σ} {L₁ : List Event} {h : HandlerFrame σ} {c : Call}
    (hf : f < s.fresh) (hc : c.handler = h.id) (hcall : Extends (some f) (c.events f) s s₁ L₁)
    (hreach : Reaches m m₁)
    (hp : ∀ fc r, Propagates [] fc p' r → Propagates [] (c::fc) p r)
    (hu : Unwinds f next [] fs p' s₁ m₁ B) : Unwinds f next [] (h::fs) p s m B := by
  obtain ⟨s',L,cc,fc,r,m',hu,hm,hreach'⟩ := hu
  have hown : ∀ g, some f = some g → g < s.fresh := fun g he => Option.some.inj he ▸ hf
  have hcc : cc = [] := List.map_eq_nil_iff.mp hu.catchers
  subst hcc
  refine ⟨s',L₁++L,[],c::fc,r,m',⟨?_,hu.context,rfl,?_,hp fc r hu.propagates⟩,
    hm,hreach.trans hreach'⟩
  · simpa using hcall.trans hown hu.events
  · rw [List.map_cons,List.map_cons,hc,hu.finalizers]

theorem popFrame_unwinds {s : Store σ} {m : Machine σ} {e : Int} {captured : Bool}
    (hf : f < s.fresh) (hfr : s.frames f = ⟨next,[],[]⟩)
    (hn : ∀ g, next = some g → ∃ K, backTo g B = some K) (hm : step m = popFrame s f e captured B) :
    Unwinds f next [] [] (decide (e≠0)&&!captured) s m B := by
  let r := decide (e≠0)&&!captured
  let s' := { s with context := next }.emit (.left f next r)
  have hpop : popFrame s f e captured B =
      if r then raiseException s' B else some ⟨s',B⟩ := by simp only [popFrame,hfr,r,s',Store.emit]
  have hsome : ∃ m', (if r then raiseException s' B else some ⟨s',B⟩) = some m' := by
    split
    · cases hnext : next with
      | none => exact ⟨⟨s',B⟩,by simp only [raiseException,s',Store.emit,hnext]⟩
      | some g =>
        obtain ⟨K,hK⟩ := hn g hnext
        exact ⟨_,raiseException_eq (s := s') hnext hK⟩
    · exact ⟨_,rfl⟩
  obtain ⟨m',hm'⟩ := hsome
  refine ⟨s',_,[],[],r,m',⟨.event _ rfl hf (Nat.le_refl _) rfl fun _ _ => rfl,rfl,rfl,rfl,?_⟩,
    hm',.step (hm.trans (hpop.trans hm'))⟩
  simp [Propagates,r]

theorem step_unwind {s : Store σ} {fs : List (HandlerFrame σ)} (B : List (Item σ))
    (e : Int) (captured : Bool) (loop : Kind) (hfr : s.frames f = ⟨next,[],fs⟩) :
    step ⟨s,.unwind f e captured loop none::B⟩ = runFinalizers s f e captured B := by
  cases loop with
  | catcher => simp only [step,runCatchers,hfr]
  | finalizer => rfl

theorem finalizers_unwind {fs : List (HandlerFrame σ)} {s : Store σ} (e : Int)
    (captured : Bool) (loop : Kind) (hc : s.context = some f) (hf : f < s.fresh)
    (hfr : s.frames f = ⟨next,[],fs⟩) (hg : ∀ h∈fs, ∀ e, Good (h.handler e))
    (hB : backTo f B = some B) (hn : ∀ g, next = some g → ∃ K, backTo g B = some K) :
    Unwinds f next [] fs (decide (e≠0)&&!captured) s
      ⟨s,.unwind f e captured loop none::B⟩ B := by
  induction fs generalizing s e captured loop with
  | nil =>
    have hstep := step_unwind B e captured loop hfr
    simp only [runFinalizers,hfr] at hstep
    exact popFrame_unwinds hf hfr hn hstep
  | cons h fs ih =>
    obtain ⟨s₁,L₁,returned,hcall,hc₁,hfr₁,hreach⟩ :=
      handler_called ⟨next,[],fs⟩ e captured .finalizer hc hf hB (hg h List.mem_cons_self e)
    have hstep := step_unwind B e captured loop hfr
    simp only [runFinalizers,hfr] at hstep
    have hreach := (Reaches.step hstep).trans hreach
    have hf₁ : f < s₁.fresh := Nat.lt_of_lt_of_le hf hcall.fresh_le
    have hg₁ : ∀ h∈fs, ∀ e, Good (h.handler e) := fun x hx => hg x (List.mem_cons_of_mem h hx)
    cases returned with
    | true =>
      exact (ih e captured .finalizer hc₁ hf₁ hfr₁ hg₁).finalizer hf rfl hcall hreach
        fun fc r => Propagates.finalizer_returned _ rfl
    | false =>
      exact (ih 1 false .catcher hc₁ hf₁ hfr₁ hg₁).finalizer hf rfl hcall hreach
        fun fc r => Propagates.finalizer_raised _ rfl

theorem catchers_unwind {cs fs : List (HandlerFrame σ)} {s : Store σ} (e : Int)
    (captured : Bool) (hc : s.context = some f) (hf : f < s.fresh)
    (hfr : s.frames f = ⟨next,cs,fs⟩) (hg : ∀ h∈cs++fs, ∀ e, Good (h.handler e))
    (hB : backTo f B = some B) (hn : ∀ g, next = some g → ∃ K, backTo g B = some K) :
    Unwinds f next cs fs (decide (e≠0)&&!captured) s
      ⟨s,.unwind f e captured .catcher none::B⟩ B := by
  induction cs generalizing s e captured with
  | nil => exact finalizers_unwind e captured .catcher hc hf hfr hg hB hn
  | cons h cs ih =>
    obtain ⟨s₁,L₁,returned,hcall,hc₁,hfr₁,hreach⟩ :=
      handler_called ⟨next,cs,fs⟩ e true .catcher hc hf hB (hg h List.mem_cons_self e)
    have hstep : step ⟨s,.unwind f e captured .catcher none::B⟩ =
        some (callHandler s f ⟨next,cs,fs⟩ e true .catcher h B) := by
      simp only [step,runCatchers,hfr]
    have hreach := (Reaches.step hstep).trans hreach
    have hf₁ : f < s₁.fresh := Nat.lt_of_lt_of_le hf hcall.fresh_le
    have hg₁ : ∀ h∈cs++fs, ∀ e, Good (h.handler e) := fun x hx => hg x (List.mem_cons_of_mem h hx)
    cases returned with
    | true =>
      have hu := ih e true hc₁ hf₁ hfr₁ hg₁
      rw [Bool.not_true,Bool.and_false] at hu
      exact hu.catcher hf rfl hcall hreach fun cc fc r => Propagates.catcher_returned _ rfl
    | false =>
      exact (ih 1 false hc₁ hf₁ hfr₁ hg₁).catcher hf rfl hcall hreach
        fun cc fc r => Propagates.catcher_raised _ rfl

end

end TinyOS.Exceptions
