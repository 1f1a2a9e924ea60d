import TinyOS.Util.TryBlocks

/-! Whole runs. A run has one continuation and its log only grows, so what is in the log
at its end is in it from the moment a block is left. -/
namespace TinyOS.Exceptions
variable {σ : Type}

theorem excTry_store {s : Store σ} {e : Int} {body : Code σ true} {K : List (Item σ)}
    {m : Machine σ} (h : excTry s e body K = some m) : m.store = s := by
  unfold excTry exceptionUnwind at h
  split at h
  · obtain ⟨f,_,rfl⟩ := Option.map_eq_some_iff.mp h
    rfl
  · obtain ⟨f,_,rfl⟩ := Option.map_eq_some_iff.mp h
    rfl

theorem raiseException_log {s : Store σ} {K : List (Item σ)} {m : Machine σ}
    (h : raiseException s K = some m) : s.log <+: m.store.log := by
  unfold raiseException at h
  split at h
  · cases h
    exact List.prefix_refl _
  · unfold longjmp at h
    split at h
    · rw [excTry_store h]
      exact List.prefix_append ..
    · cases h

theorem popFrame_log {s : Store σ} {f : Nat} {e : Int} {captured : Bool} {K : List (Item σ)}
    {m : Machine σ} (h : popFrame s f e captured K = some m) : s.log <+: m.store.log := by
  have hleft := List.prefix_append s.log
    [.left f (s.frames f).next (decide (e≠0)&&!captured)]
  simp only [popFrame] at h
  split at h
  · exact hleft.trans (raiseException_log h)
  · cases h
    exact hleft

theorem runFinalizers_log {s : Store σ} {f : Nat} {e : Int} {captured : Bool}
    {K : List (Item σ)} {m : Machine σ} (h : runFinalizers s f e captured K = some m) :
    s.log <+: m.store.log := by
  unfold runFinalizers at h
  split at h
  · cases h
    exact List.prefix_append ..
  · exact popFrame_log h

theorem stepCode_log {s : Store σ} {K : List (Item σ)} {b : Bool} {c : Code σ b}
    {scope : Scope b} {m : Machine σ} (h : stepCode s K c scope = some m) :
    s.log <+: m.store.log := by
  cases c with
  | done => cases h; exact List.prefix_refl _
  | act f k => cases h; exact List.prefix_refl _
  | branch k => cases h; exact List.prefix_refl _
  | raise k => exact raiseException_log h
  | tryWith body k => cases h; exact List.prefix_append ..
  | register kind handler k =>
    cases scope with
    | inside f => cases h; exact List.prefix_append ..

theorem step_log {m m' : Machine σ} (h : step m = some m') :
    m.store.log <+: m'.store.log := by
  obtain ⟨s,stack⟩ := m
  cases stack with
  | nil => cases h
  | cons i K =>
    cases i with
    | run c scope => exact stepCode_log h
    | unwind f e captured loop running =>
      cases running with
      | some r => cases h; exact List.prefix_append ..
      | none =>
        cases loop with
        | catcher =>
          simp only [step,runCatchers] at h
          split at h
          · cases h; exact List.prefix_append ..
          · exact runFinalizers_log h
        | finalizer => exact runFinalizers_log h
    | exitTry =>
      simp only [step,excExitTry] at h
      obtain ⟨f,hf,h⟩ := Option.bind_eq_some_iff.mp h
      obtain ⟨g,hg,rfl⟩ := Option.map_eq_some_iff.mp h
      exact List.prefix_append ..
    | block f body k scope => cases h; exact List.prefix_refl _

theorem Reaches.log {m m' : Machine σ} (h : Reaches m m') : m.store.log <+: m'.store.log := by
  induction h with
  | refl => exact List.prefix_refl _
  | tail _ hs ih => exact ih.trans (step_log hs)

theorem Reaches.ahead {m₀ m : Machine σ} {s : Store σ} (hend : Reaches m₀ ⟨s,[]⟩)
    (hm : Reaches m₀ m) : Reaches m ⟨s,[]⟩ := by
  have hdet : Relator.RightUnique (Step (σ := σ)) :=
    fun _ _ _ h h' => Option.some.inj (h.symm.trans h')
  cases Relation.ReflTransGen.total_of_right_unique hdet hm hend with
  | inl h => exact h
  | inr h =>
    cases Relation.ReflTransGen.cases_head h with
    | inl heq => exact heq ▸ .refl
    | inr h =>
      obtain ⟨_,hs,_⟩ := h
      cases hs

theorem start_ends (main : Code σ false) (user : σ) : ∃ s, Reaches (start main user) ⟨s,[]⟩ ∧
    s.context = none ∧ ∀ f, history f s.log = [] ∨ Told f (history f s.log) := by
  obtain ⟨s,L,hext,hc,hends⟩ := (runs main).good (start main user).store [] ⟨nofun,nofun⟩
  have hlog : s.log = L := hext.log_eq.trans (List.nil_append L)
  cases hends with
  | falls h => exact ⟨s,h,hc,fun f => hlog ▸ hext.younger f (Nat.zero_le f)⟩
  | raises hne => exact absurd hc hne

theorem mem_history {f : Nat} {e : Event} {log : List Event} :
    e∈history f log ↔ e∈log ∧ e.frame = f := by simp [history]

theorem Report.left_mem {f : Nat} {r : Report} {ctx : Option Nat} {rr : Bool}
    (hl : .left f ctx rr∈r.events f) : r.context = ctx ∧ r.reraised = rr := by
  simp only [Report.events,Call.events,List.mem_append,List.mem_cons,List.mem_map,
    List.mem_flatMap,List.not_mem_nil,or_false] at hl
  grind

theorem Report.left_last {f : Nat} {r : Report} {E : List Event} {ctx : Option Nat} {rr : Bool}
    (hE : E <+: r.events f) (hl : .left f ctx rr∈E) : E = r.events f := by
  cases List.prefix_concat_iff.mp hE with
  | inl h => exact h
  | inr h =>
    have hl := h.subset hl
    simp only [Call.events,List.mem_append,List.mem_cons,List.mem_map,List.mem_flatMap,
      List.not_mem_nil,or_false] at hl
    grind

theorem left_told {main : Code σ false} {user : σ} {m : Machine σ}
    (hm : Reaches (start main user) m) {f : Nat} {ctx : Option Nat} {rr : Bool}
    (hl : .left f ctx rr∈m.store.log) : ∃ r : Report, r.Orderly ∧
      Propagates r.catchers r.finalizers r.raised r.reraised ∧ r.context = ctx ∧
      r.reraised = rr ∧ history f m.store.log = r.events f := by
  obtain ⟨s,hend,_,htold⟩ := start_ends main user
  have hpre : history f m.store.log <+: history f s.log := (hend.ahead hm).log.filter _
  have hl : .left f ctx rr∈history f m.store.log := mem_history.mpr ⟨hl,rfl⟩
  cases htold f with
  | inl h => exact absurd (h ▸ hpre.subset hl) List.not_mem_nil
  | inr h =>
    obtain ⟨r,ho,hp,hr⟩ := h
    rw [hr] at hpre
    have heq := Report.left_last hpre hl
    obtain ⟨hc,hrr⟩ := Report.left_mem (heq ▸ hl)
    exact ⟨r,ho,hp,hc,hrr,heq⟩

theorem Report.entered_left {f : Nat} {r : Report} {ctx : Option Nat}
    (he : .entered f ctx∈r.events f) : .left f ctx r.reraised∈r.events f := by
  have hctx : r.context = ctx := by
    simp only [Report.events,Call.events,List.mem_append,List.mem_cons,List.mem_map,
      List.mem_flatMap,List.not_mem_nil,or_false] at he
    grind
  rw [← hctx]
  exact List.mem_append_right _ List.mem_cons_self

/-- In every state of every run: the run ends, with all its blocks left and *context as it
was; a block that has been left has called its handlers once and in order, and *context
is then what it was at the head of the block. -/
theorem try_blocks_orderly (main : Code σ false) (user : σ) {m : Machine σ}
    (hm : Reaches (start main user) m) :
    (∃ s, Reaches m ⟨s,[]⟩ ∧ s.context = none ∧
      ∀ f ctx, .entered f ctx∈s.log → ∃ rr, .left f ctx rr∈s.log) ∧
    ∀ f ctx rr, .left f ctx rr∈m.store.log → ∃ r : Report, r.Orderly ∧ r.context = ctx ∧
      history f m.store.log = r.events f := by
  constructor
  · obtain ⟨s,hend,hc,htold⟩ := start_ends main user
    refine ⟨s,hend.ahead hm,hc,fun f ctx he => ?_⟩
    have he : .entered f ctx∈history f s.log := mem_history.mpr ⟨he,rfl⟩
    cases htold f with
    | inl h => exact absurd (h ▸ he) List.not_mem_nil
    | inr h =>
      obtain ⟨r,_,_,hr⟩ := h
      have hl : .left f ctx r.reraised∈history f s.log := hr ▸ Report.entered_left (hr ▸ he)
      exact ⟨r.reraised,(mem_history.mp hl).1⟩
  · intro f ctx rr hl
    obtain ⟨r,ho,_,hc,_,hr⟩ := left_told hm hl
    exact ⟨r,ho,hc,hr⟩

def iterate : Nat → Machine σ → Machine σ
  | 0, m => m
  | n+1, m => match step m with
    | some m' => iterate n m'
    | none => m

theorem reaches_iterate (n : Nat) (m : Machine σ) : Reaches m (iterate n m) := by
  induction n generalizing m with
  | zero => exact .refl
  | succ n ih =>
    rw [iterate]
    split
    · next m' h => exact .head h (ih m')
    · exact .refl

def raisingCatcher : Code Unit false :=
  .tryWith (.FINALLY (fun _ => .done)
    (.tryWith (.ON_ERROR (.raise .done) (.raise .done)) .done)) .done

theorem try_blocks_orderly_nested : (∃ s, Reaches (start raisingCatcher ()) ⟨s,[]⟩ ∧
      s.context = none) ∧ ∃ r : Report, r.Orderly ∧ r.context = some 0 ∧
      history 2 (iterate 20 (start raisingCatcher ())).store.log = r.events 2 :=
  have h := try_blocks_orderly raisingCatcher () .refl
  have h' := try_blocks_orderly raisingCatcher () (reaches_iterate 20 (start raisingCatcher ()))
  ⟨h.1.imp fun _ hs => ⟨hs.1,hs.2.1⟩,h'.2 2 (some 0) true (by decide)⟩

/-- Whether the body's exception is propagated as its catchers say. -/
theorem Propagates.handled_iff {cc fc : List Call} {reraised : Bool}
    (h : Propagates cc fc true reraised) : ((reraised = true ↔ cc = []) ↔
      cc = [] ∨ (∀ c∈fc, c.returned = true) ∧ ∀ c∈cc.getLast?, c.returned = true) := by
  unfold Propagates at h
  rw [h]
  by_cases hc : cc = []
  · simp [hc]
  · simp [hc]

/-- An exception of the body of a block goes on to the enclosing frame exactly if no catcher
was called, for the blocks without catchers and those in which the catcher registered first,
which is called last, and all finalizers return. -/
theorem handled_iff_return (main : Code σ false) (user : σ) {m : Machine σ}
    (hm : Reaches (start main user) m) {f : Nat} {ctx : Option Nat} {rr : Bool}
    (hl : .left f ctx rr∈m.store.log) : ∃ r : Report, r.Orderly ∧ r.context = ctx ∧
      r.reraised = rr ∧ history f m.store.log = r.events f ∧ (r.raised = true →
      ((rr = true ↔ r.catchers = []) ↔ handlersOf .catcher r.registered = [] ∨
        (∀ c∈r.finalizers, c.returned = true) ∧ ∀ c∈r.catchers.getLast?, c.returned = true)) := by
  obtain ⟨r,ho,hp,hc,hrr,hr⟩ := left_told hm hl
  refine ⟨r,ho,hc,hrr,hr,fun hraised => ?_⟩
  have hcatchers : r.catchers = [] ↔ handlersOf .catcher r.registered = [] := by
    have hmap := ho.catchers
    rw [if_pos hraised] at hmap
    rw [← List.map_eq_nil_iff,hmap,List.reverse_eq_nil_iff]
  rw [hraised,hrr] at hp
  rw [← hcatchers]
  exact hp.handled_iff

theorem handled_iff_return_nested : ∃ r : Report, r.reraised = true ∧
    history 2 (iterate 20 (start raisingCatcher ())).store.log = r.events 2 ∧
    (r.raised = true → ((true = true ↔ r.catchers = []) ↔
      handlersOf .catcher r.registered = [] ∨
        (∀ c∈r.finalizers, c.returned = true) ∧ ∀ c∈r.catchers.getLast?, c.returned = true)) :=
  have hl : .left 2 (some 0) true∈(iterate 20 (start raisingCatcher ())).store.log := by decide
  have ⟨r,_,_,hrr,hr,h⟩ := handled_iff_return raisingCatcher () (reaches_iterate 20 _) hl
  ⟨r,hrr,hr,h⟩

/-- The catcher was called and raised: nothing is captured in the new activation. -/
theorem raising_catcher_reraised : ∃ m, Reaches (start raisingCatcher ()) m ∧
    ∃ r : Report, history 2 m.store.log = r.events 2 ∧ r.raised = true ∧ r.catchers≠[] ∧
      r.reraised = true ∧ .raised 0∈m.store.log :=
  ⟨_,reaches_iterate 20 _,⟨some 0,[(.catcher,3)],true,[⟨3,1,false⟩],[],true⟩,
    by decide,rfl,nofun,rfl,by decide⟩

end TinyOS.Exceptions
