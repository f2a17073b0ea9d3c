import Circom.TypeAnalysis.Proofs.Agreement

/-!
# The circuit does not depend on the signals

Two runs that agree on the environment before a statement build the same and agree on the environment after
it: where the condition is known they go the same way, and where it is not, whatever they do is assigned to
variables that are marked.
-/

set_option linter.unusedSectionVars false

namespace Circom.TypeAnalysis

open Circom.Ast
open Circom.Lib (HashMap Scopes Occurs)
open Circom.Lib.Scopes
open Circom.ProgramStructure
open Circom.ProgramStructure.Variables

variable {V : Type} [DecidableEq V] {reducesTo : Meta → TypeReduction} {ops : Operators V}
  {signals₁ signals₂ : Wires V} {environment environment' : Environment} {s₁ s₂ s₁' s₂' : RunState V}

variable {cond : Expression} {assigned names : List String} {info : Meta} {ifCase stmt : Statement}
variable {name : String} {fuel fuel₁ fuel₂ : ℕ}

/-! ## Conditions -/

/-- A variable that neither run assigns to stays the same in both. -/
theorem Agree.unassigned (h : Agree environment s₁ s₂) (hchanges₁ : Changes assigned [] s₁ s₁')
    (hchanges₂ : Changes assigned [] s₂ s₂') {i : ℕ} (hknown : KnownAt environment.vars i name)
    (hnot : ¬ (name ∈ assigned ∧ Innermost environment.vars i name)) :
    entry s₁'.vars i name = entry s₂'.vars i name := by
  obtain ⟨hne₁, hne₂⟩ := h.ne_nil
  have hsame₁ : entry s₁.vars i name = entry s₁'.vars i name := by
    rcases (hchanges₁ hne₁).entries i name with heq | ⟨hassigned, hinner⟩ | ⟨-, hmem⟩
    · exact heq
    · exact absurd ⟨hassigned, h.keys₁.innermost.mpr hinner⟩ hnot
    · simp at hmem
  have hsame₂ : entry s₂.vars i name = entry s₂'.vars i name := by
    rcases (hchanges₂ hne₂).entries i name with heq | ⟨hassigned, hinner⟩ | ⟨-, hmem⟩
    · exact heq
    · exact absurd ⟨hassigned, h.keys₂.innermost.mpr hinner⟩ hnot
    · simp at hmem
  rw [← hsame₁, ← hsame₂]
  exact h.known i name hknown

/-- The runs part, and everything that they may have changed is unknown afterwards. -/
theorem Agree.diverge (h : Agree environment s₁ s₂) (hchanges₁ : Changes assigned [] s₁ s₁')
    (hchanges₂ : Changes assigned [] s₂ s₂') (htags₁ : s₁'.tags = s₁.tags) (htags₂ : s₂'.tags = s₂.tags)
    (hkeys : SameKeys environment.vars environment'.vars)
    (hknown : ∀ i name, KnownAt environment'.vars i name → KnownAt environment.vars i name ∧ ¬ (name ∈ assigned ∧ Innermost environment.vars i name))
    (hcomponents : ComponentsUnknown environment'.components) : Agree environment' s₁' s₂' := by
  obtain ⟨hne₁, hne₂⟩ := h.ne_nil
  have hgrows₁ := hchanges₁ hne₁
  have hgrows₂ := hchanges₂ hne₂
  have hkeys₁ : SameKeys s₁.vars s₁'.vars := (grows_nil_iff.mp hgrows₁).sameKeys
  have hkeys₂ : SameKeys s₂.vars s₂'.vars := (grows_nil_iff.mp hgrows₂).sameKeys
  refine
    { nonempty := ?_
      tags := by rw [htags₁, htags₂, h.tags]
      keys₁ := (hkeys.symm.trans h.keys₁).trans hkeys₁
      keys₂ := (hkeys.symm.trans h.keys₂).trans hkeys₂
      known := ?_
      components := hcomponents }
  · have hlength := List.length_pos_iff.mpr h.nonempty
    rw [hkeys.1] at hlength
    exact List.length_pos_iff.mp hlength
  · intro i name hafter
    obtain ⟨hbefore, hnot⟩ := hknown i name hafter
    exact h.unassigned hchanges₁ hchanges₂ hbefore hnot

theorem Agree.evalCond (h : Agree environment s₁ s₂) (htrusted : Trusted reducesTo environment cond)
    (htag : tag reducesTo environment cond = some .known) :
    TypeAnalysis.evalCond reducesTo ops signals₁ cond s₁ =
      TypeAnalysis.evalCond reducesTo ops signals₂ cond s₂ := by
  rw [TypeAnalysis.evalCond, TypeAnalysis.evalCond, h.eval_of_trusted htrusted htag]

/-- What marking leaves known after an unknown condition. -/
theorem knownAt_marked {a b : Environment} (hkeys : SameKeys a.vars b.vars)
    (hknown : ∀ i name, KnownAt b.vars i name → name ∉ assigned ∨ ¬ Innermost a.vars i name → KnownAt a.vars i name)
    (hdropped : ∀ name ∈ assigned, name ∉ names → ¬ Tagged b name .known) :
    ∀ i name, KnownAt (markUnknown names b).vars i name →
      KnownAt a.vars i name ∧ ¬ (name ∈ assigned ∧ Innermost a.vars i name) := by
  intro i name hmarked
  obtain ⟨hb, hnot⟩ := knownAt_markUnknown names b hmarked
  have hunassigned : ¬ (name ∈ assigned ∧ Innermost a.vars i name) := by
    rintro ⟨hassigned, hinner⟩
    have hinner' := hkeys.innermost.mp hinner
    by_cases hmem : name ∈ names
    · exact hnot hmem hinner'
    · exact hdropped name hassigned hmem ((tagged_iff_knownAt hinner').mpr hb)
  exact ⟨hknown i name hb (not_and_or.mp hunassigned), hunassigned⟩

/-- Two runs of a conditional. -/
theorem agree_conditional {tagCond : Tag} {first second : List String} {left right : Environment} {c₁ c₂ : Bool}
    {events₁ events₂ : Trace V} (h : Agree environment s₁ s₂) (htrusted : Trusted reducesTo environment cond)
    (htag : tag reducesTo environment cond = some tagCond) (hleft : Evolves first [] environment left)
    (hright : Evolves second [] environment right) (hcond₁ : evalCond reducesTo ops signals₁ cond s₁ = some c₁)
    (hcond₂ : evalCond reducesTo ops signals₂ cond s₂ = some c₂)
    (htrue : c₁ = true → c₂ = true → events₁ = events₂ ∧ Agree left s₁' s₂')
    (hfalse : c₁ = false → c₂ = false → events₁ = events₂ ∧ Agree right s₁' s₂')
    (hchanges₁ : Changes (first ++ second) [] s₁ s₁') (hchanges₂ : Changes (first ++ second) [] s₂ s₂')
    (hsilent : tagCond = .unknown → (s₁'.tags = s₁.tags ∧ events₁ = []) ∧ (s₂'.tags = s₂.tags ∧ events₂ = []))
    (hdropped : tagCond = .unknown → ∀ name ∈ first ++ second, name ∉ names → ¬ Tagged (left.merge right) name .known) :
    events₁ = events₂ ∧
      Agree (if tagCond = .unknown then markUnknown names (left.merge right) else left.merge right)
        s₁' s₂' := by
  have hmerge : Evolves (first ++ second) [] environment (left.merge right) :=
    hleft.merge hright fun _ hname => List.mem_append_left _ hname
  have hkeys : SameKeys left.vars right.vars :=
    (hleft.sameKeys h.nonempty).symm.trans (hright.sameKeys h.nonempty)
  have hcomponents := (hmerge h.nonempty).2 h.components
  cases tagCond with
  | known =>
    have hcond : some c₁ = some c₂ := by
      rw [← hcond₁, ← hcond₂]
      exact h.evalCond htrusted htag
    obtain ⟨rfl⟩ := hcond
    rw [if_neg (by simp)]
    cases c₁ with
    | true =>
      obtain ⟨hevents, hagree⟩ := htrue rfl rfl
      exact ⟨hevents, hagree.weaken (weaker_merge hkeys).1 hcomponents⟩
    | false =>
      obtain ⟨hevents, hagree⟩ := hfalse rfl rfl
      exact ⟨hevents, hagree.weaken (weaker_merge hkeys).2 hcomponents⟩
  | unknown =>
    obtain ⟨⟨htags₁, rfl⟩, htags₂, rfl⟩ := hsilent rfl
    rw [if_pos rfl]
    refine ⟨rfl, h.diverge hchanges₁ hchanges₂ htags₁ htags₂ ?_ ?_ ?_⟩
    · exact (hmerge.sameKeys h.nonempty).trans (sameKeys_markUnknown names _)
    · refine knownAt_marked (hmerge.sameKeys h.nonempty) ?_ (hdropped rfl)
      intro i name hknown hnot
      rcases (hmerge h.nonempty).1.entries i name with hkeeps | hassigned | ⟨-, hmem⟩
      · exact hkeeps hknown
      · exact absurd hassigned (not_and_or.mpr hnot)
      · simp at hmem
    · rw [components_markUnknown]
      exact hcomponents

/-! ## Loops -/

/-- Two runs of a loop that keep in step. -/
theorem execLoop_lockstep {R : RunState V → RunState V → Prop}
    {cond₁ cond₂ : RunState V → Option Bool}
    {body₁ body₂ : ℕ → RunState V → Option (RunState V × Trace V)}
    (hcond : ∀ s₁ s₂, R s₁ s₂ → cond₁ s₁ = cond₂ s₂)
    (hbody : ∀ k s₁ s₂ s₁' s₂' events₁ events₂, R s₁ s₂ → body₁ k s₁ = some (s₁', events₁) →
      body₂ k s₂ = some (s₂', events₂) → events₁ = events₂ ∧ R s₁' s₂') :
    ∀ (fuel₁ fuel₂ k : ℕ) (s₁ s₂ s₁' s₂' : RunState V) (events₁ events₂ : Trace V), R s₁ s₂ →
      execLoop cond₁ body₁ fuel₁ k s₁ = some (s₁', events₁) →
      execLoop cond₂ body₂ fuel₂ k s₂ = some (s₂', events₂) → events₁ = events₂ ∧ R s₁' s₂' := by
  intro fuel₁
  induction fuel₁ with
  | zero => intro fuel₂ k s₁ s₂ s₁' s₂' events₁ events₂ _ h₁; simp [execLoop] at h₁
  | succ fuel₁ ih =>
    intro fuel₂ k s₁ s₂ s₁' s₂' events₁ events₂ hR h₁ h₂
    cases fuel₂ with
    | zero => simp [execLoop] at h₂
    | succ fuel₂ =>
      rw [execLoop, Option.bind_eq_bind, Option.bind_eq_some_iff] at h₁ h₂
      obtain ⟨c, hc₁, h₁⟩ := h₁
      obtain ⟨c', hc₂, h₂⟩ := h₂
      rw [hcond s₁ s₂ hR, hc₂] at hc₁
      obtain ⟨rfl⟩ := hc₁
      cases c with
      | true =>
        simp only [if_true, Option.bind_eq_bind, Option.bind_eq_some_iff, Prod.exists,
          Option.some.injEq, Prod.mk.injEq] at h₁ h₂
        obtain ⟨t₁, first₁, hfirst₁, u₁, rest₁, hrest₁, rfl, rfl⟩ := h₁
        obtain ⟨t₂, first₂, hfirst₂, u₂, rest₂, hrest₂, rfl, rfl⟩ := h₂
        obtain ⟨rfl, hR⟩ := hbody k s₁ s₂ t₁ t₂ first₁ first₂ hR hfirst₁ hfirst₂
        obtain ⟨rfl, hR⟩ := ih fuel₂ (k + 1) t₁ t₂ u₁ u₂ rest₁ rest₂ hR hrest₁ hrest₂
        exact ⟨rfl, hR⟩
      | false =>
        simp only [Bool.false_eq_true, if_false, Option.some.injEq, Prod.mk.injEq] at h₁ h₂
        obtain ⟨rfl, rfl⟩ := h₁
        obtain ⟨rfl, rfl⟩ := h₂
        exact ⟨rfl, hR⟩

/-- A round of the loop whose runs agree at the end of the body: they agree at the start of the next one. -/
theorem agree_round {entry body after : Environment} (h : Agree entry s₁ s₂) (hbody : Agree body s₁' s₂')
    (hevolves : Evolves assigned [] entry body) (hcheck : checkModified entry body names = (false, after))
    (hdropped : ∀ name ∈ assigned, name ∉ names → Tagged entry name .known → Tagged body name .known)
    (hchanges₁ : Changes assigned [] s₁ s₁') (hchanges₂ : Changes assigned [] s₂ s₂') : Agree entry s₁' s₂' := by
  have hkeys := hevolves.sameKeys h.nonempty
  obtain ⟨hne₁, hne₂⟩ := h.ne_nil
  refine
    { nonempty := h.nonempty
      tags := hbody.tags
      keys₁ := hkeys.trans hbody.keys₁
      keys₂ := hkeys.trans hbody.keys₂
      known := ?_
      components := h.components }
  intro i name hknown
  by_cases hassigned : name ∈ assigned ∧ Innermost entry.vars i name
  · obtain ⟨hassigned, hinner⟩ := hassigned
    refine hbody.known i name ?_
    by_cases hmem : name ∈ names
    · -- the round has joined its tag, and no variable got unknown
      have hflag : (checkNames entry names (false, body)).1 = false := by
        rw [← checkModified_eq, hcheck]
      have hafter := knownAt_checkNames_of_unmodified names hkeys hflag hinner hknown (Or.inl hmem)
      exact (knownAt_checkNames names hkeys hafter).1
    · have htagged := hdropped name hassigned hmem ((tagged_iff_knownAt hinner).mpr hknown)
      exact (tagged_iff_knownAt (hkeys.innermost.mp hinner)).mp htagged
  · exact h.unassigned hchanges₁ hchanges₂ hknown hassigned

/-- Two runs of the statement from states that agree build the same and agree afterwards. -/
def Noninterfering (reducesTo : Meta → TypeReduction) (ops : Operators V) (signals₁ signals₂ : Wires V)
    (fuel fuel₁ fuel₂ : ℕ) (stmt : Statement) : Prop :=
  ∀ environment exit choices s₁ s₂ s₁' s₂' events₁ events₂, Propagates reducesTo fuel stmt environment →
    analyze reducesTo fuel stmt environment = some exit → exit.reports = [] → Agree environment s₁ s₂ →
    exec reducesTo ops signals₁ fuel₁ stmt choices s₁ = some (s₁', events₁) →
    exec reducesTo ops signals₂ fuel₂ stmt choices s₂ = some (s₂', events₂) →
    events₁ = events₂ ∧ Agree exit.environment s₁' s₂'

theorem mem_droppedVariables (hassigned : name ∈ assignedVariables reducesTo stmt)
    (hcollected : name ∉ collectedVariables reducesTo stmt) : name ∈ droppedVariables reducesTo stmt := by
  rw [droppedVariables, List.mem_filter, decide_eq_true_eq]
  exact ⟨hassigned, hcollected⟩

/-- The environments of a loop, seen by two runs: they agree at the start of every iteration on what is known
at the start of the last round, and when the loop is left on what is known at its end. -/
theorem agree_loop {entry after : Environment} {body : ExitInformation} (hdeclares : declaredVariables stmt = [])
    (hscalar : Scalar stmt) (hbody : Noninterfering reducesTo ops signals₁ signals₂ fuel fuel₁ fuel₂ stmt)
    (hpropagates : Propagates reducesTo fuel (.whileStmt info cond stmt) environment)
    (hloop : analyzeLoop (fun environment => analyze reducesTo fuel stmt environment) fuel environment = some (entry, body, after))
    (hreports : body.reports = []) (h : Agree environment s₁ s₂) :
    Agree entry s₁ s₂ ∧ Weaker entry.vars after.vars ∧ ComponentsUnknown after.components ∧
      ∀ choices t₁ t₂ t₁' t₂' events₁ events₂, Agree entry t₁ t₂ →
        exec reducesTo ops signals₁ fuel₁ stmt choices t₁ = some (t₁', events₁) →
        exec reducesTo ops signals₂ fuel₂ stmt choices t₂ = some (t₂', events₂) →
        events₁ = events₂ ∧ Agree entry t₁' t₂' := by
  obtain ⟨hrounds, hlast⟩ := hpropagates
  obtain ⟨hentry, -, -⟩ := hlast entry body after hloop
  obtain ⟨hanalyze, hcheck⟩ := analyzeLoop_last hloop
  have hround (a : Environment) (exit : ExitInformation) (h : analyze reducesTo fuel stmt a = some exit) :
      Evolves (assignedVariables reducesTo stmt) [] a exit.environment := by
    have hevolves := evolves_analyze fuel stmt a exit hscalar h
    rw [hdeclares] at hevolves
    exact hevolves
  have hchanges {signals : Wires V} {fuel : ℕ} {choices : List Choice} {t t' : RunState V} {events : Trace V}
      (h : exec reducesTo ops signals fuel stmt choices t = some (t', events)) :
      Changes (assignedVariables reducesTo stmt) [] t t' := by
    have hchanges := changes_exec fuel stmt choices t t' events hscalar h
    rw [hdeclares] at hchanges
    exact hchanges
  obtain ⟨hevolvesEntry, hevolvesAfter⟩ := evolves_analyzeLoop hround hloop
  obtain ⟨hweakerEntry, hweakerAfter, hdropped⟩ := weaker_analyzeLoop
    (fun a exit h => ⟨hround a exit h, modifiedVariables_analyze fuel stmt a exit h⟩) h.nonempty
    (by simpa only [droppedVariables, List.mem_filter, decide_eq_true_eq, and_imp] using hrounds) hloop
  have hagree : Agree entry s₁ s₂ :=
    h.weaken hweakerEntry ((hevolvesEntry h.nonempty).2 h.components)
  refine ⟨hagree, hweakerAfter, (hevolvesAfter hagree.nonempty).2 hagree.components, ?_⟩
  intro choices t₁ t₂ t₁' t₂' events₁ events₂ ht h₁ h₂
  obtain ⟨rfl, hexit⟩ := hbody entry body choices t₁ t₂ t₁' t₂' events₁ events₂ hentry hanalyze hreports ht h₁ h₂
  rw [modifiedVariables_analyze fuel stmt entry body hanalyze] at hcheck
  refine ⟨rfl, agree_round ht hexit (hround entry body hanalyze) hcheck ?_ (hchanges h₁) (hchanges h₂)⟩
  exact fun name hname hnot => (hdropped name hname hnot .known).mp

theorem noninterfering_whileStmt (hdeclares : declaredVariables stmt = []) (hscalar : Scalar stmt)
    (hbody : Noninterfering reducesTo ops signals₁ signals₂ fuel fuel₁ fuel₂ stmt) :
    Noninterfering reducesTo ops signals₁ signals₂ fuel fuel₁ fuel₂ (.whileStmt info cond stmt) := by
  intro environment exit choices s₁ s₂ s₁' s₂' events₁ events₂ hpropagates hanalyze hreports h h₁ h₂
  have hwhile : Scalar (.whileStmt info cond stmt) := ⟨hdeclares, hscalar⟩
  obtain ⟨entry, body, after, tagOut, hloop, htag, rfl⟩ := analyze_whileStmt hanalyze
  rw [List.append_eq_nil_iff, unreachableReports_eq_nil] at hreports
  obtain ⟨hreports, hsilent⟩ := hreports
  obtain ⟨hentry, hweaker, hcomponents, hiteration⟩ :=
    agree_loop hdeclares hscalar hbody hpropagates hloop hreports h
  obtain ⟨-, htrusted, hdropped⟩ := hpropagates.2 entry body after hloop
  cases tagOut with
  | known =>
    rw [if_neg (by simp)]
    obtain ⟨hevents, hagree⟩ := execLoop_lockstep
      (fun t₁ t₂ ht => (ht.weaken hweaker hcomponents).evalCond htrusted htag)
      (fun k t₁ t₂ t₁' t₂' e₁ e₂ => hiteration (choices ++ [.iteration k]) t₁ t₂ t₁' t₂' e₁ e₂)
      fuel₁ fuel₂ 0 s₁ s₂ s₁' s₂' events₁ events₂ hentry h₁ h₂
    exact ⟨hevents, hagree.weaken hweaker hcomponents⟩
  | unknown =>
    rw [if_pos rfl]
    have hnothing := hsilent rfl
    obtain ⟨htags₁, rfl⟩ := silent_exec fuel fuel₁ _ environment _ choices s₁ s₁' events₁ hanalyze hnothing h₁
    obtain ⟨htags₂, rfl⟩ := silent_exec fuel fuel₂ _ environment _ choices s₂ s₂' events₂ hanalyze hnothing h₂
    refine ⟨rfl, hentry.diverge (changes_exec fuel₁ _ choices s₁ s₁' _ hwhile h₁)
      (changes_exec fuel₂ _ choices s₂ s₂' _ hwhile h₂) htags₁ htags₂ ?_ ?_ ?_⟩
    · exact hweaker.sameKeys.trans (sameKeys_markUnknown _ after)
    · refine knownAt_marked hweaker.sameKeys (fun i name hknown _ => hweaker.known hknown) ?_
      rw [modifiedVariables_analyze fuel stmt entry body (analyzeLoop_last hloop).1]
      exact fun name hname hnot => hdropped htag name (mem_droppedVariables hname hnot)
    · rw [components_markUnknown]
      exact hcomponents

/-! ## Simple statements -/

theorem Agree.setVariable (h : Agree environment s₁ s₂) {content : Tag × Bool} {v₁ v₂ : V}
    (hvalue : content.1 = .known → v₁ = v₂) :
    Agree { environment with vars := environment.vars.setVariable name content }
      { s₁ with vars := s₁.vars.setVariable name v₁ } { s₂ with vars := s₂.vars.setVariable name v₂ } where
  nonempty := by
    rw [← List.length_pos_iff, length_setVariable, List.length_pos_iff]
    exact h.nonempty
  tags := h.tags
  keys₁ := ((sameKeys_setVariable _ name content).symm.trans h.keys₁).trans (sameKeys_setVariable _ name v₁)
  keys₂ := ((sameKeys_setVariable _ name content).symm.trans h.keys₂).trans (sameKeys_setVariable _ name v₂)
  known i name' hknown := by
    rw [entry_setVariable, entry_setVariable]
    rcases knownAt_setVariable.mp hknown with ⟨⟨rfl, hinner⟩, hcontent⟩ | ⟨hnot, hknown⟩
    · rw [if_pos ⟨rfl, h.keys₁.innermost.mp hinner⟩, if_pos ⟨rfl, h.keys₂.innermost.mp hinner⟩,
        hvalue hcontent]
    · rw [← h.keys₁.innermost, ← h.keys₂.innermost, if_neg hnot, if_neg hnot]
      exact h.known i name' hknown
  components := h.components

theorem sameKeys_addVariable {VC VC' : Type} {blocks : Variables VC} {blocks' : Variables VC'}
    (hkeys : SameKeys blocks blocks') (hblocks : blocks ≠ []) (name : String) (content : VC)
    (content' : VC') :
    SameKeys (blocks.addVariable name content) (blocks'.addVariable name content') := by
  have hblocks' : blocks' ≠ [] := by
    rw [← List.length_pos_iff, ← hkeys.1, List.length_pos_iff]
    exact hblocks
  refine ⟨by rw [length_addVariable, length_addVariable, hkeys.1], fun i name' => ?_⟩
  rw [entry_addVariable hblocks, entry_addVariable hblocks']
  split
  · rfl
  · exact hkeys.2 i name'

theorem Agree.addVariable (h : Agree environment s₁ s₂) (name : String) (content : Tag × Bool) (v : V) :
    Agree { environment with vars := environment.vars.addVariable name content }
      { s₁ with vars := s₁.vars.addVariable name v } { s₂ with vars := s₂.vars.addVariable name v } where
  nonempty := by
    rw [← List.length_pos_iff, length_addVariable, List.length_pos_iff]
    exact h.nonempty
  tags := h.tags
  keys₁ := sameKeys_addVariable h.keys₁ h.nonempty name content v
  keys₂ := sameKeys_addVariable h.keys₂ h.nonempty name content v
  known i name' hknown := by
    rw [KnownAt, entry_addVariable h.nonempty] at hknown
    rw [entry_addVariable h.ne_nil.1, entry_addVariable h.ne_nil.2]
    split
    · rfl
    · next hnot =>
      rw [if_neg hnot] at hknown
      exact h.known i name' hknown
  components := h.components

theorem Agree.instantiation (h : Agree environment s₁ s₂) (rhe : Expression) :
    Reads reducesTo environment rhe → tag reducesTo environment rhe = some .known →
    TypeAnalysis.instantiation reducesTo ops signals₁ s₁ rhe =
      TypeAnalysis.instantiation reducesTo ops signals₂ s₂ rhe := by
  induction rhe using Expression.children_induction with
  | step rhe ih =>
    intro hreads htag
    cases rhe with
    | call info id args =>
      have htags := expressionIterator_eq_known.mp htag
      have hvalues : evalAll reducesTo ops signals₁ s₁ args = evalAll reducesTo ops signals₂ s₂ args :=
        evalAll_congr fun e he => h.eval e (hreads.child he) (htags e he)
      rw [TypeAnalysis.instantiation, TypeAnalysis.instantiation, hvalues]
    | parallelOp info rhe =>
      have hmem : rhe ∈ (Expression.parallelOp info rhe).children := by simp [Expression.children]
      exact ih rhe hmem (hreads.child hmem) htag
    | _ => rfl

theorem noninterfering_substitution (info : Meta) (var : String) (access : List Access) (op : AssignOp)
    (rhe : Expression) :
    Noninterfering reducesTo ops signals₁ signals₂ fuel fuel₁ fuel₂ (.substitution info var access op rhe) := by
  intro environment exit choices s₁ s₂ s₁' s₂' events₁ events₂ hpropagates hanalyze hreports h h₁ h₂
  have hdecisive : ∀ e ∈ decisive reducesTo (.substitution info var access op rhe),
      Trusted reducesTo environment e := hpropagates
  have hanalyze := analyzeSubstitution_cases hanalyze
  have h₁ := execSubstitution_cases h₁
  have h₂ := execSubstitution_cases h₂
  -- the values that decide over something are the same in both runs
  have hpath (hmem : ∀ e ∈ access.filterMap Access.index?,
      e ∈ decisive reducesTo (.substitution info var access op rhe))
      (htag : accessTag reducesTo environment access = some .known) :
      evalAccess reducesTo ops signals₁ s₁ access = evalAccess reducesTo ops signals₂ s₂ access :=
    evalAccess_congr fun e he =>
      h.eval_of_trusted (hdecisive e (hmem e he)) (accessTag_eq_known.mp htag e he)
  have hvalue (hmem : rhe ∈ decisive reducesTo (.substitution info var access op rhe))
      (htag : tag reducesTo environment rhe = some .known) :
      eval reducesTo ops signals₁ s₁ rhe = eval reducesTo ops signals₂ s₂ rhe :=
    h.eval_of_trusted (hdecisive rhe hmem) htag
  have hindices (hmem : ∀ e ∈ access.filterMap Access.index? ++ indices rhe,
      e ∈ decisive reducesTo (.substitution info var access op rhe))
      (haccess : accessTag reducesTo environment access = some .known)
      (hindex : unknownIndex reducesTo environment rhe = some false) :
      indexValues reducesTo ops signals₁ s₁ (access.filterMap Access.index? ++ indices rhe) =
        indexValues reducesTo ops signals₂ s₂ (access.filterMap Access.index? ++ indices rhe) := by
    refine h.indexValues (fun e he => hdecisive e (hmem e he)) fun e he => ?_
    rcases List.mem_append.mp he with he | he
    · exact accessTag_eq_known.mp haccess e he
    · exact tag_indices rhe hindex e he
  cases hreduces : reducesTo info with
  | var =>
    simp only [hreduces, reduceCtorEq, false_and, exists_false, or_false, true_and, ne_eq,
      not_true_eq_false] at hanalyze h₁ h₂
    obtain ⟨-, content, henvironment, hcontent⟩ := hanalyze
    obtain ⟨v₁, hv₁, rfl, rfl⟩ := h₁
    obtain ⟨v₂, hv₂, rfl, rfl⟩ := h₂
    rw [henvironment]
    refine ⟨rfl, h.setVariable fun ht => ?_⟩
    have heq := hvalue (by simp [decisive, hreduces]) (hcontent ht)
    rw [hv₁, hv₂] at heq
    exact Option.some.inj heq
  | component t =>
    simp only [hreduces, reduceCtorEq, false_and, exists_false, or_false, false_or, true_and, ne_eq,
      not_false_eq_true, TypeReduction.component.injEq, exists_eq'] at hanalyze h₁ h₂
    obtain ⟨-, henvironment, -, hknown⟩ := hanalyze
    obtain ⟨hrhe, haccess⟩ := hknown hreports
    obtain ⟨path₁, template₁, params₁, hpath₁, hparams₁, rfl, rfl⟩ := h₁
    obtain ⟨path₂, template₂, params₂, hpath₂, hparams₂, rfl, rfl⟩ := h₂
    rw [hpath (fun e he => by simp [decisive, hreduces, List.mem_append, he]) haccess, hpath₂] at hpath₁
    have htrusted : Trusted reducesTo environment rhe := hdecisive rhe (by simp [decisive, hreduces])
    rw [h.instantiation rhe (htrusted hrhe) hrhe, hparams₂] at hparams₁
    obtain ⟨rfl⟩ := hpath₁
    obtain ⟨rfl⟩ := hparams₁
    rw [henvironment]
    exact ⟨rfl, h⟩
  | tag =>
    simp only [hreduces, reduceCtorEq, false_and, exists_false, or_false, false_or, true_and, ne_eq,
      not_false_eq_true] at hanalyze h₁ h₂
    obtain ⟨-, henvironment, -, hknown⟩ := hanalyze
    obtain ⟨hrhe, haccess⟩ := hknown hreports
    obtain ⟨path₁, v₁, hpath₁, hv₁, rfl, rfl⟩ := h₁
    obtain ⟨path₂, v₂, hpath₂, hv₂, rfl, rfl⟩ := h₂
    rw [hpath (fun e he => by simp [decisive, hreduces, List.mem_append, he]) haccess, hpath₂] at hpath₁
    rw [hvalue (by simp [decisive, hreduces]) hrhe, hv₂] at hv₁
    obtain ⟨rfl⟩ := hpath₁
    obtain ⟨rfl⟩ := hv₁
    rw [henvironment]
    exact ⟨rfl, h.nonempty, by rw [h.tags], h.keys₁, h.keys₂, h.known, h.components⟩
  | signal =>
    simp only [hreduces, reduceCtorEq, false_and, exists_false, or_false, false_or, true_and, ne_eq,
      not_false_eq_true] at hanalyze h₁ h₂
    obtain ⟨-, henvironment, hconstraint⟩ := hanalyze
    obtain ⟨rfl, rfl⟩ := h₁
    obtain ⟨rfl, rfl⟩ := h₂
    rw [henvironment]
    refine ⟨?_, h⟩
    by_cases hop : op = .assignConstraintSignal
    · obtain ⟨haccess, hindex⟩ := (hconstraint hop).2 hreports
      rw [if_pos hop, if_pos hop, hindices (fun e he => ?_) haccess hindex]
      simp only [decisive, hreduces, if_pos hop]
      exact he
    · rw [if_neg hop, if_neg hop]
  | bus b =>
    simp only [hreduces, reduceCtorEq, false_and, exists_false, or_false, false_or, true_and, ne_eq,
      not_false_eq_true, TypeReduction.bus.injEq, exists_eq'] at hanalyze h₁ h₂
    obtain ⟨-, henvironment, hconstraint⟩ := hanalyze
    obtain ⟨rfl, rfl⟩ := h₁
    obtain ⟨rfl, rfl⟩ := h₂
    rw [henvironment]
    refine ⟨?_, h⟩
    by_cases hop : op = .assignConstraintSignal
    · obtain ⟨haccess, hindex⟩ := (hconstraint hop).2 hreports
      rw [if_pos hop, if_pos hop, hindices (fun e he => ?_) haccess hindex]
      simp only [decisive, hreduces, if_pos hop]
      exact he
    · rw [if_neg hop, if_neg hop]

theorem noninterfering_declaration (info : Meta) (xtype : VariableType) (name : String) (dimensions : List Expression)
    (isConstant isAnonymous : Bool) :
    Noninterfering reducesTo ops signals₁ signals₂ fuel fuel₁ fuel₂
      (.declaration info xtype name dimensions isConstant isAnonymous) := by
  intro environment exit choices s₁ s₂ s₁' s₂' events₁ events₂ hpropagates hanalyze hreports h h₁ h₂
  have hdecisive := hpropagates exit hanalyze
  rcases analyzeDeclaration_cases hanalyze with
    ⟨rfl, -, henvironment⟩ | ⟨hvar, -, -, hvars, hcomponents, hdimensions⟩
  · obtain ⟨-, rfl, rfl⟩ := (execDeclaration_cases h₁).resolve_right (by simp)
    obtain ⟨-, rfl, rfl⟩ := (execDeclaration_cases h₂).resolve_right (by simp)
    rw [henvironment]
    exact ⟨rfl, h.addVariable name _ _⟩
  · have hagree : Agree exit.environment s₁ s₂ := by
      refine h.weaken (by rw [hvars]; exact Weaker.refl _) ?_
      rcases hcomponents with hsame | hinsert
      · rw [hsame]
        exact h.components
      · rw [hinsert]
        exact componentsUnknown_insert h.components name
    rcases execDeclaration_cases h₁ with ⟨hxtype, -⟩ | ⟨rfl, rfl, rfl⟩ | ⟨-, hanonymous, rfl, values₁, hvalues₁, rfl⟩
    · exact absurd hxtype hvar
    · obtain ⟨-, rfl, rfl⟩ :=
        ((execDeclaration_cases h₂).resolve_left (by simp)).resolve_right (by simp)
      exact ⟨rfl, hagree⟩
    · obtain ⟨-, -, rfl, values₂, hvalues₂, rfl⟩ :=
        ((execDeclaration_cases h₂).resolve_left (fun hv => hvar hv.1)).resolve_left
          (fun ha => hanonymous ha.1)
      have htags := hdimensions hanonymous hreports
      have hsame : evalAll reducesTo ops signals₁ s₁' dimensions =
          evalAll reducesTo ops signals₂ s₂' dimensions := by
        refine evalAll_congr fun e he => hagree.eval_of_trusted (hdecisive e ?_) (htags e he)
        rw [decisive, if_neg hanonymous]
        exact he
      rw [hsame, hvalues₂] at hvalues₁
      obtain ⟨rfl⟩ := hvalues₁
      exact ⟨rfl, hagree⟩

/-! ## All statements -/

theorem keys_removeVariableBlock {VC VC' : Type} {blocks : Variables VC} {blocks' : Variables VC'}
    (h : SameKeys blocks blocks') : SameKeys blocks.removeVariableBlock blocks'.removeVariableBlock := by
  refine ⟨?_, fun i name => ?_⟩
  · rw [removeVariableBlock, removeVariableBlock, List.length_tail, List.length_tail, h.1]
  · rw [removeVariableBlock, removeVariableBlock, entry_tail, entry_tail]
    exact h.2 (i + 1) name

theorem keys_addVariableBlock {VC VC' : Type} {blocks : Variables VC} {blocks' : Variables VC'}
    (h : SameKeys blocks blocks') : SameKeys blocks.addVariableBlock blocks'.addVariableBlock := by
  refine ⟨congrArg (· + 1) h.1, fun i name => ?_⟩
  cases i with
  | zero => rfl
  | succ i => exact h.2 i name

theorem Agree.addVariableBlock (h : Agree environment s₁ s₂) :
    Agree { environment with vars := environment.vars.addVariableBlock }
      { s₁ with vars := s₁.vars.addVariableBlock } { s₂ with vars := s₂.vars.addVariableBlock } where
  nonempty := List.cons_ne_nil _ _
  tags := h.tags
  keys₁ := keys_addVariableBlock h.keys₁
  keys₂ := keys_addVariableBlock h.keys₂
  known i name hknown := by
    cases i with
    | zero => rfl
    | succ i => exact h.known i name hknown
  components := h.components

theorem Agree.removeVariableBlock (h : Agree environment s₁ s₂) (hvars : environment.vars.tail ≠ []) :
    Agree { environment with vars := environment.vars.removeVariableBlock }
      { s₁ with vars := s₁.vars.removeVariableBlock } { s₂ with vars := s₂.vars.removeVariableBlock } where
  nonempty := hvars
  tags := h.tags
  keys₁ := keys_removeVariableBlock h.keys₁
  keys₂ := keys_removeVariableBlock h.keys₂
  known i name hknown := by
    rw [Variables.removeVariableBlock, Variables.removeVariableBlock, entry_tail, entry_tail]
    rw [KnownAt, Variables.removeVariableBlock, entry_tail] at hknown
    exact h.known (i + 1) name hknown
  components := h.components

/-- As for a single statement. -/
def NoninterferingAll (reducesTo : Meta → TypeReduction) (ops : Operators V) (signals₁ signals₂ : Wires V)
    (fuel fuel₁ fuel₂ : ℕ) (stmts : List Statement) : Prop :=
  ∀ environment exit choices s₁ s₂ s₁' s₂' events₁ events₂,
    PropagatesAll reducesTo fuel stmts environment →
    iterateStatements reducesTo fuel stmts { environment := environment } = some exit →
    exit.reports = [] → Agree environment s₁ s₂ →
    execAll reducesTo ops signals₁ fuel₁ stmts choices s₁ = some (s₁', events₁) →
    execAll reducesTo ops signals₂ fuel₂ stmts choices s₂ = some (s₂', events₂) →
    events₁ = events₂ ∧ Agree exit.environment s₁' s₂'

theorem noninterfering_block {stmts : List Statement} (hscalar : AllScalar stmts)
    (hstmts : NoninterferingAll reducesTo ops signals₁ signals₂ fuel fuel₁ fuel₂ stmts) :
    Noninterfering reducesTo ops signals₁ signals₂ fuel fuel₁ fuel₂ (.block info stmts) := by
  intro environment exit choices s₁ s₂ s₁' s₂' events₁ events₂ hpropagates hanalyze hreports h h₁ h₂
  obtain ⟨inner, hinner, rfl⟩ := analyze_block hanalyze
  obtain ⟨t₁, hrun₁, rfl⟩ := exec_block h₁
  obtain ⟨t₂, hrun₂, rfl⟩ := exec_block h₂
  obtain ⟨hevents, hagree⟩ := hstmts _ inner choices _ _ t₁ t₂ events₁ events₂ hpropagates hinner hreports
    h.addVariableBlock hrun₁ hrun₂
  refine ⟨hevents, hagree.removeVariableBlock ?_⟩
  have hlength := (evolves_iterateStatements fuel stmts _ inner hscalar hinner (List.cons_ne_nil _ _)).1.length
  have hpos := List.length_pos_iff.mpr h.nonempty
  rw [← List.length_pos_iff, List.length_tail, hlength]
  simpa [Variables.addVariableBlock] using hpos

/-- The branch that a run of a conditional takes. -/
def runBranch (reducesTo : Meta → TypeReduction) (ops : Operators V) (signals : Wires V) (fuel : ℕ)
    (ifCase elseStmt : Statement) (choices : List Choice) (s : RunState V) (c : Bool) :
    Option (RunState V × Trace V) :=
  exec reducesTo ops signals fuel (if c then ifCase else elseStmt) (choices ++ [.branch c]) s

theorem exec_branch {signals : Wires V} {elseStmt : Statement} {choices : List Choice} {s s' : RunState V}
    {events : Trace V}
    (h : exec reducesTo ops signals fuel (.ifThenElse info cond ifCase (some elseStmt)) choices s = some (s', events)) :
    ∃ c, evalCond reducesTo ops signals cond s = some c ∧
      runBranch reducesTo ops signals fuel ifCase elseStmt choices s c = some (s', events) := by
  rcases exec_ifThenElse h with ⟨hc, hrun⟩ | ⟨hc, ⟨stmt, ⟨rfl⟩, hrun⟩ | ⟨hnone, -⟩⟩
  · exact ⟨true, hc, hrun⟩
  · exact ⟨false, hc, hrun⟩
  · simp at hnone

theorem noninterfering_ifThenElse {elseStmt : Statement}
    (hscalar : Scalar (.ifThenElse info cond ifCase (some elseStmt)))
    (hif : Noninterfering reducesTo ops signals₁ signals₂ fuel fuel₁ fuel₂ ifCase)
    (helse : Noninterfering reducesTo ops signals₁ signals₂ fuel fuel₁ fuel₂ elseStmt) :
    Noninterfering reducesTo ops signals₁ signals₂ fuel fuel₁ fuel₂
      (.ifThenElse info cond ifCase (some elseStmt)) := by
  intro environment exit choices s₁ s₂ s₁' s₂' events₁ events₂ hpropagates hanalyze hreports h h₁ h₂
  obtain ⟨hdeclares, hscalarIf, hdeclaresElse, hscalarElse⟩ := id hscalar
  obtain ⟨htrusted, hpropagatesIf, hpropagatesElse, hdropped⟩ := hpropagates
  have hsilent (hnothing : exit.Silent) : (s₁'.tags = s₁.tags ∧ events₁ = []) ∧
      (s₂'.tags = s₂.tags ∧ events₂ = []) :=
    ⟨silent_exec fuel fuel₁ _ environment exit choices s₁ s₁' events₁ hanalyze hnothing h₁,
      silent_exec fuel fuel₂ _ environment exit choices s₂ s₂' events₂ hanalyze hnothing h₂⟩
  obtain ⟨tagCond, ifInfo, elseInfo, htag, hleft, hright, rfl⟩ := analyze_ifThenElse hanalyze
  rw [List.append_eq_nil_iff, List.append_eq_nil_iff, unreachableReports_eq_nil] at hreports
  obtain ⟨⟨hreportsIf, hreportsElse⟩, hunreachable⟩ := hreports
  have hevolvesIf := evolves_analyze fuel ifCase environment ifInfo hscalarIf hleft
  have hevolvesElse := evolves_analyze fuel elseStmt environment elseInfo hscalarElse hright
  rw [hdeclares] at hevolvesIf
  rw [hdeclaresElse] at hevolvesElse
  obtain ⟨c₁, hcond₁, hrun₁⟩ := exec_branch h₁
  obtain ⟨c₂, hcond₂, hrun₂⟩ := exec_branch h₂
  refine agree_conditional h htrusted htag hevolvesIf hevolvesElse hcond₁ hcond₂ ?_ ?_
    (changes_exec fuel₁ _ choices s₁ s₁' events₁ hscalar h₁)
    (changes_exec fuel₂ _ choices s₂ s₂' events₂ hscalar h₂) (fun ht => hsilent (hunreachable ht)) ?_
  · rintro rfl rfl
    exact hif environment ifInfo _ s₁ s₂ s₁' s₂' events₁ events₂ hpropagatesIf hleft hreportsIf h hrun₁ hrun₂
  · rintro rfl rfl
    exact helse environment elseInfo _ s₁ s₂ s₁' s₂' events₁ events₂ hpropagatesElse hright hreportsElse h
      hrun₁ hrun₂
  · intro ht name hassigned hcollected
    have hleft' : (analyze reducesTo fuel ifCase environment).map (·.environment) =
        some ifInfo.environment := by rw [hleft]; rfl
    have hright' : (analyze reducesTo fuel elseStmt environment).map (·.environment) =
        some elseInfo.environment := by
      rw [show analyze reducesTo fuel elseStmt environment = some elseInfo from hright]
      rfl
    rw [ht] at htag
    refine hdropped _ _ hleft' hright' htag name (mem_droppedVariables hassigned ?_)
    rw [modifiedVariables_analyze fuel ifCase environment ifInfo hleft,
      modifiedVariables_analyze fuel elseStmt environment elseInfo hright] at hcollected
    exact hcollected

/-- A conditional without an `else` is one with an empty block there. -/
theorem noninterfering_ifThen
    (h : Noninterfering reducesTo ops signals₁ signals₂ fuel fuel₁ fuel₂
      (.ifThenElse info cond ifCase (some (.block info [])))) :
    Noninterfering reducesTo ops signals₁ signals₂ fuel fuel₁ fuel₂ (.ifThenElse info cond ifCase none) := by
  have hanalyze (environment : Environment) :
      analyze reducesTo fuel (.ifThenElse info cond ifCase none) environment =
        analyze reducesTo fuel (.ifThenElse info cond ifCase (some (.block info []))) environment := by
    simp only [analyze, iterateStatements, Option.bind_eq_bind, Option.bind_some]
    rfl
  have hexec (signals : Wires V) (fuel : ℕ) (choices : List Choice) (s : RunState V) :
      exec reducesTo ops signals fuel (.ifThenElse info cond ifCase none) choices s =
        exec reducesTo ops signals fuel (.ifThenElse info cond ifCase (some (.block info []))) choices s := by
    simp only [exec, execAll, Option.bind_eq_bind, Option.bind_some]
    rfl
  intro environment exit choices s₁ s₂ s₁' s₂' events₁ events₂ hpropagates hanalyze' hreports hagree h₁ h₂
  rw [hanalyze] at hanalyze'
  rw [hexec] at h₁ h₂
  refine h environment exit choices s₁ s₂ s₁' s₂' events₁ events₂ ?_ hanalyze' hreports hagree h₁ h₂
  obtain ⟨htrusted, hpropagatesIf, -, hdropped⟩ := hpropagates
  refine ⟨htrusted, hpropagatesIf, trivial, fun left right hleft hright => ?_⟩
  have hright' : some environment = some right := by
    rw [← hright]
    simp only [analyze, iterateStatements, Option.bind_eq_bind, Option.bind_some]
    rfl
  exact hdropped left right hleft hright'

mutual

/-- The circuit that a statement builds does not depend on the signals. -/
theorem noninterfering (fuel fuel₁ fuel₂ : ℕ) : ∀ (stmt : Statement), Scalar stmt →
    Noninterfering reducesTo ops signals₁ signals₂ fuel fuel₁ fuel₂ stmt
  | .declaration info xtype name dimensions isConstant isAnonymous, _ =>
    noninterfering_declaration info xtype name dimensions isConstant isAnonymous
  | .substitution info var access op rhe, _ => noninterfering_substitution info var access op rhe
  | .underscoreSubstitution info op rhe, _ => by
    intro environment exit choices s₁ s₂ s₁' s₂' events₁ events₂ hpropagates hanalyze hreports h h₁ h₂
    obtain ⟨henvironment, -, hconstraint⟩ := analyze_underscoreSubstitution hanalyze
    simp only [exec, Option.bind_eq_bind, Option.bind_eq_some_iff, Option.some.injEq,
      Prod.mk.injEq] at h₁ h₂
    obtain ⟨v₁, -, rfl, rfl⟩ := h₁
    obtain ⟨v₂, -, rfl, rfl⟩ := h₂
    rw [henvironment]
    refine ⟨?_, h⟩
    by_cases hop : op = .assignConstraintSignal
    · have htrusted : ∀ e ∈ indices rhe, Trusted reducesTo environment e := fun e he =>
        hpropagates e (by simpa only [decisive, if_pos hop] using he)
      rw [if_pos hop, if_pos hop, h.indexValues htrusted (tag_indices rhe ((hconstraint hop).2 hreports))]
    · rw [if_neg hop, if_neg hop]
  | .constraintEquality info lhe rhe, _ => by
    intro environment exit choices s₁ s₂ s₁' s₂' events₁ events₂ hpropagates hanalyze hreports h h₁ h₂
    obtain ⟨henvironment, -, -, hconstraint⟩ := analyze_constraintEquality hanalyze
    obtain ⟨hl, hr⟩ := hconstraint hreports
    simp only [exec, Option.bind_eq_bind, Option.bind_eq_some_iff, Option.some.injEq,
      Prod.mk.injEq] at h₁ h₂
    obtain ⟨l₁, -, r₁, -, rfl, rfl⟩ := h₁
    obtain ⟨l₂, -, r₂, -, rfl, rfl⟩ := h₂
    rw [henvironment]
    have htrusted : ∀ e ∈ indices lhe ++ indices rhe, Trusted reducesTo environment e := hpropagates
    have htags : ∀ e ∈ indices lhe ++ indices rhe, tag reducesTo environment e = some .known := by
      intro e he
      rcases List.mem_append.mp he with he | he
      · exact tag_indices lhe hl e he
      · exact tag_indices rhe hr e he
    rw [h.indexValues htrusted htags]
    exact ⟨rfl, h⟩
  | .ifThenElse info _ ifCase none, hscalar => by
    have hblock : Scalar (.block info []) := trivial
    refine noninterfering_ifThen (noninterfering_ifThenElse
      ⟨hscalar.1, hscalar.2.1, rfl, hblock⟩ (noninterfering fuel fuel₁ fuel₂ ifCase hscalar.2.1) ?_)
    exact noninterfering_block trivial (noninterferingAll fuel fuel₁ fuel₂ [] trivial)
  | .ifThenElse _ _ ifCase (some elseStmt), hscalar =>
    noninterfering_ifThenElse hscalar (noninterfering fuel fuel₁ fuel₂ ifCase hscalar.2.1)
      (noninterfering fuel fuel₁ fuel₂ elseStmt hscalar.2.2.2)
  | .whileStmt _ _ stmt, hscalar =>
    noninterfering_whileStmt hscalar.1 hscalar.2 (noninterfering fuel fuel₁ fuel₂ stmt hscalar.2)
  | .block _ stmts, hscalar =>
    noninterfering_block hscalar (noninterferingAll fuel fuel₁ fuel₂ stmts hscalar)
  | .initializationBlock _ _ initializations, hscalar =>
    noninterferingAll fuel fuel₁ fuel₂ initializations hscalar
  | .assert _ arg, _ => by
    intro environment exit choices s₁ s₂ s₁' s₂' events₁ events₂ _ hanalyze _ h h₁ h₂
    obtain ⟨rfl, rfl⟩ := exec_assert h₁
    obtain ⟨rfl, rfl⟩ := exec_assert h₂
    simp only [analyze, Option.some.injEq] at hanalyze
    subst hanalyze
    exact ⟨rfl, h⟩
  | .logCall .., _ => by
    intro environment exit choices s₁ s₂ s₁' s₂' events₁ events₂ _ hanalyze _ h h₁ h₂
    simp only [exec, Option.some.injEq, Prod.mk.injEq] at h₁ h₂
    obtain ⟨rfl, rfl⟩ := h₁
    obtain ⟨rfl, rfl⟩ := h₂
    simp only [analyze, Option.some.injEq] at hanalyze
    subst hanalyze
    exact ⟨rfl, h⟩
  | .returnStmt .., _ => by
    intro environment exit choices s₁ s₂ s₁' s₂' events₁ events₂ _ _ _ _ h₁
    simp [exec] at h₁
  | .multSubstitution .., _ => by
    intro environment exit choices s₁ s₂ s₁' s₂' events₁ events₂ _ _ _ _ h₁
    simp [exec] at h₁

theorem noninterferingAll (fuel fuel₁ fuel₂ : ℕ) : ∀ (stmts : List Statement), AllScalar stmts →
    NoninterferingAll reducesTo ops signals₁ signals₂ fuel fuel₁ fuel₂ stmts
  | [], _ => by
    intro environment exit choices s₁ s₂ s₁' s₂' events₁ events₂ _ hanalyze _ h h₁ h₂
    simp only [execAll, Option.some.injEq, Prod.mk.injEq] at h₁ h₂
    obtain ⟨rfl, rfl⟩ := h₁
    obtain ⟨rfl, rfl⟩ := h₂
    simp only [iterateStatements, Option.some.injEq] at hanalyze
    subst hanalyze
    exact ⟨rfl, h⟩
  | stmt :: stmts, hscalar => by
    intro environment exit choices s₁ s₂ s₁' s₂' events₁ events₂ hpropagates hanalyze hreports h h₁ h₂
    obtain ⟨first, rest, hfirst, hrest, rfl⟩ := iterateStatements_cons hanalyze
    obtain ⟨hreportsFirst, hreportsRest⟩ := List.append_eq_nil_iff.mp hreports
    obtain ⟨t₁, first₁, rest₁, hrun₁, hruns₁, rfl⟩ := execAll_cons h₁
    obtain ⟨t₂, first₂, rest₂, hrun₂, hruns₂, rfl⟩ := execAll_cons h₂
    obtain ⟨rfl, hagree⟩ := noninterfering fuel fuel₁ fuel₂ stmt hscalar.1 environment first choices
      s₁ s₂ t₁ t₂ first₁ first₂ hpropagates.1 hfirst hreportsFirst h hrun₁ hrun₂
    obtain ⟨rfl, hagree⟩ := noninterferingAll fuel fuel₁ fuel₂ stmts hscalar.2 first.environment rest choices
      t₁ t₂ s₁' s₂' rest₁ rest₂ (hpropagates.2 first hfirst) hrest hreportsRest hagree hruns₁ hruns₂
    exact ⟨rfl, hagree⟩

end

end Circom.TypeAnalysis
